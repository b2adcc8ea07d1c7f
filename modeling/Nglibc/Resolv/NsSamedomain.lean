import Nglibc.Resolv.NsMakecanon

/-! `resolv/ns_samedomain.c` and `resolv/ns_samename.c`. Texts are the bytes before the null
terminator, and case is folded for the ASCII letters.
-/

namespace Nglibc.Resolv

open List

def toLower (c : UInt8) : UInt8 := UInt8.ofNat (mklower c.toNat)

def strcasecmp : List UInt8 → List UInt8 → Int
  | [], b => -((toLower (b.headD 0)).toNat : Int)
  | c :: a, b =>
    let result := ((toLower c).toNat : Int) - (toLower (b.headD 0)).toNat
    if result = 0 then strcasecmp a b.tail else result

def strncasecmp (a b : List UInt8) : Nat → Int
  | 0 => 0
  | n + 1 =>
    let result := ((toLower (a.headD 0)).toNat : Int) - (toLower (b.headD 0)).toNat
    if result = 0 then
      if a.headD 0 = 0 then 0 else strncasecmp a.tail b.tail n
    else result

/-- The loop that looks back from the byte `i - 1` on: whether the byte behind it is escaped. -/
def escapedLoop (a : List UInt8) : Nat → Bool → Bool
  | 0, escaped => escaped
  | i + 1, escaped =>
    if a.getD i 0 = backslash then escapedLoop a i (if escaped then false else true) else escaped

def separatorLess (a : List UInt8) : Nat :=
  let la := a.length
  if la ≠ 0 ∧ a.getD (la - 1) 0 = dot then
    if ¬ escapedLoop a (la - 1) false then la - 1 else la
  else la

def nsSamedomain (a b : List UInt8) : Bool :=
  let la := separatorLess a
  let lb := separatorLess b
  if lb = 0 then true
  else if lb > la then false
  else if lb = la then strncasecmp a b lb = 0
  else
    let diff := la - lb
    if diff < 2 then false
    else if a.getD (diff - 1) 0 ≠ dot then false
    else if escapedLoop a (diff - 1) false then false
    else strncasecmp (a.drop diff) b lb = 0

/-- `__libc_ns_samename`. -/
def nsSamename (a b : List UInt8) : Int :=
  match nsMakecanon a nsMaxdname, nsMakecanon b nsMaxdname with
  | .ok ta, .ok tb => if strcasecmp ta tb = 0 then 1 else 0
  | _, _ => -1

def nsSubdomain (a b : List UInt8) : Bool := nsSamename a b ≠ 1 && nsSamedomain a b

variable {a b t u text : List UInt8} {la lb labels : List Label} {l : Label} {escaped : Bool}

def lower (text : List UInt8) : List UInt8 := text.map toLower

theorem mklower_lt : ∀ n < 256, mklower n < 256 := by decide +kernel

theorem toNat_toLower (c : UInt8) : (toLower c).toNat = mklower c.toNat := by
  rw [toLower, UInt8.toNat_ofNat', Nat.mod_eq_of_lt (mklower_lt _ c.toNat_lt)]

theorem mklower_eq_zero : ∀ n < 256, mklower n = 0 → n = 0 := by decide +kernel

theorem toLower_eq_zero {c : UInt8} : toLower c = 0 ↔ c = 0 := by
  constructor
  · intro zero
    have value : mklower c.toNat = 0 := by
      rw [← toNat_toLower, zero]
      rfl
    exact UInt8.toNat_inj.mp (mklower_eq_zero _ c.toNat_lt value)
  · rintro rfl
    decide

/-- The bytes of a text have no case or differ in it from their capitals. -/
theorem toLower_sub {c d : UInt8}
    : ((toLower c).toNat : Int) - (toLower d).toNat = 0 ↔ toLower c = toLower d := by
  rw [← UInt8.toNat_inj]
  omega

/-- `strcasecmp` decides equality up to case. -/
theorem strcasecmp_eq_zero (string : 0 ∉ a) (string' : 0 ∉ b)
    : strcasecmp a b = 0 ↔ lower a = lower b := by
  induction a generalizing b with
  | nil =>
    cases b with
    | nil => exact iff_of_true (by decide) rfl
    | cons d b =>
      have nonzero : toLower d ≠ 0 := fun zero =>
        string' (mem_cons.mpr (.inl (toLower_eq_zero.mp zero).symm))
      have value : (toLower d).toNat ≠ 0 := fun zero => nonzero (UInt8.toNat_inj.mp zero)
      refine iff_of_false ?_ (by simp [lower])
      rw [strcasecmp, headD_cons]
      omega
  | cons c a ih =>
    rw [mem_cons, not_or] at string
    cases b with
    | nil =>
      have nonzero : toLower c ≠ toLower 0 := fun same =>
        string.1 (toLower_eq_zero.mp (same.trans (by decide))).symm
      refine iff_of_false ?_ (by simp [lower])
      rw [strcasecmp, headD_nil]
      rw [if_neg (mt toLower_sub.mp nonzero)]
      exact mt toLower_sub.mp nonzero
    | cons d b =>
      rw [mem_cons, not_or] at string'
      rw [strcasecmp, headD_cons, tail_cons, lower, lower, map_cons, map_cons,
        List.cons.injEq]
      by_cases same : toLower c = toLower d
      · rw [if_pos (toLower_sub.mpr same), ih string.2 string'.2]
        exact (and_iff_right same).symm
      · rw [if_neg (mt toLower_sub.mp same)]
        exact iff_of_false (mt toLower_sub.mp same) (fun both => same both.1)

private theorem strncasecmp_eq_zero (string : 0 ∉ a) (same : a.length = b.length)
    : strncasecmp a b b.length = 0 ↔ lower a = lower b := by
  induction a generalizing b with
  | nil =>
    have empty : b = [] := length_eq_zero_iff.mp same.symm
    subst empty
    exact iff_of_true rfl rfl
  | cons c a ih =>
    cases b with
    | nil => cases same
    | cons d b =>
      rw [mem_cons, not_or] at string
      rw [length_cons, strncasecmp, headD_cons, headD_cons, tail_cons,
        tail_cons, lower, lower, map_cons, map_cons, List.cons.injEq]
      by_cases equal : toLower c = toLower d
      · rw [if_pos (toLower_sub.mpr equal), if_neg (Ne.symm string.1),
          ih string.2 (Nat.succ.inj same)]
        exact (and_iff_right equal).symm
      · rw [if_neg (mt toLower_sub.mp equal)]
        exact iff_of_false (mt toLower_sub.mp equal) (fun both => equal both.1)

def Label.lower (l : Label) : Label := ⟨Resolv.lower l.1, by rw [Resolv.lower, length_map]; exact l.2⟩

theorem same_iff_lower {l m : Label} : l.Same m ↔ l.lower = m.lower := by
  have bytes : l.lower = m.lower ↔ Resolv.lower l.1 = Resolv.lower m.1 := Subtype.ext_iff
  have values (text : List UInt8)
      : (Resolv.lower text).map UInt8.toNat = text.map (fun c => mklower c.toNat) := by
    rw [Resolv.lower, map_map]
    exact map_congr_left fun c _ => toNat_toLower c
  rw [bytes, Label.Same, ← values, ← values]
  exact (map_injective_iff.mpr fun c d => UInt8.toNat_inj.mp).eq_iff

theorem sameName_iff_lower : SameName la lb ↔ la.map Label.lower = lb.map Label.lower := by
  constructor
  · intro same
    induction same with
    | nil => rfl
    | cons first rest ih => rw [map_cons, map_cons, ih, same_iff_lower.mp first]
  · intro equal
    induction la generalizing lb with
    | nil =>
      rw [map_eq_nil_iff.mp equal.symm]
      exact .nil
    | cons l la ih =>
      cases lb with
      | nil => cases equal
      | cons m lb =>
        rw [map_cons, map_cons, List.cons.injEq] at equal
        exact .cons (same_iff_lower.mpr equal.1) (ih equal.2)

/-- The bytes behind a backslash and the digits have no case, and a byte that stands for itself still does
in lower case.
-/
theorem special_mklower : ∀ n < 256, special (mklower n) = special n := by decide +kernel

theorem printable_mklower : ∀ n < 256, printable (mklower n) = printable n := by decide +kernel

theorem mklower_of_hidden : ∀ n < 256, special n = true ∨ printable n = false → mklower n = n := by
  decide +kernel

theorem toLower_of_hidden {c : UInt8} (hidden : special c.toNat = true ∨ printable c.toNat = false)
    : toLower c = c := by
  rw [toLower, mklower_of_hidden _ c.toNat_lt hidden, UInt8.ofNat_toNat]

theorem toLower_digit {d : Nat} (small : d < 10)
    : toLower (UInt8.ofNat ('0'.toNat + d)) = UInt8.ofNat ('0'.toNat + d) := by
  interval_cases d <;> decide

private theorem byteText_toLower (c : UInt8) : byteText (toLower c) = lower (byteText c) := by
  have small : c.toNat < 256 := c.toNat_lt
  rw [byteText, byteText, toNat_toLower, special_mklower _ small, printable_mklower _ small]
  split
  · rename_i quoted
    simp only [lower, map_cons, map_nil, toLower_of_hidden (.inl quoted)]
    rw [toLower_of_hidden (c := UInt8.ofNat '\\'.toNat) (.inl (by decide))]
  · split
    · rename_i hidden
      have fixed : mklower c.toNat = c.toNat :=
        mklower_of_hidden _ small (.inr (Bool.not_eq_true _ ▸ hidden))
      simp only [lower, map_cons, map_nil, fixed]
      rw [toLower_digit (by omega), toLower_digit (by omega), toLower_digit (by omega),
        toLower_of_hidden (c := UInt8.ofNat '\\'.toNat) (.inl (by decide))]
    · rfl

theorem lower_append : lower (a ++ b) = lower a ++ lower b := map_append ..

theorem Label.text_lower (l : Label) : l.lower.text = Resolv.lower l.text := by
  rw [Label.text, Label.text, Label.lower]
  dsimp only
  induction l.1 with
  | nil => rfl
  | cons c bytes ih =>
    have head : Resolv.lower (c :: bytes) = toLower c :: Resolv.lower bytes := rfl
    rw [head, flatMap_cons, flatMap_cons, lower_append, ih, byteText_toLower]

theorem moreText_lower (labels : List Label)
    : moreText (labels.map Label.lower) = lower (moreText labels) := by
  induction labels with
  | nil => rfl
  | cons l labels ih =>
    have step (m : Label) (rest : List Label) : moreText (m :: rest) = (dot :: m.text) ++ moreText rest := rfl
    have first : lower (dot :: l.text) = dot :: lower l.text := rfl
    rw [map_cons, step, step, lower_append, ih, first, Label.text_lower]

theorem nameText_lower (labels : List Label)
    : nameText (labels.map Label.lower) = lower (nameText labels) := by
  cases labels with
  | nil => rfl
  | cons l labels =>
    rw [map_cons, nameText, nameText, lower_append, Label.text_lower, moreText_lower]

theorem wire_lower (labels : List Label) : (wire (labels.map Label.lower)).length = (wire labels).length := by
  induction labels with
  | nil => rfl
  | cons l labels ih =>
    have same : l.lower.1.length = l.1.length := length_map _
    rw [map_cons, wire_cons, wire_cons, length_append, length_append, ih,
      length_label_wire, length_label_wire, same]

theorem HoldsName.unique {m : Memory UInt8} {address : Nat} (name : HoldsName m address la)
    (name' : HoldsName m address lb)
    : la = lb := by
  induction la generalizing address lb with
  | nil =>
    cases lb with
    | nil => rfl
    | cons l lb =>
      have zero : (m address).toNat = 0 := toNat_eq_zero.mpr name
      have positive := l.2.1
      rw [name'.1] at zero
      omega
  | cons l la ih =>
    cases lb with
    | nil =>
      have zero : (m address).toNat = 0 := toNat_eq_zero.mpr name'
      have positive := l.2.1
      rw [name.1] at zero
      omega
    | cons l' lb =>
      have length : l.1.length = l'.1.length := name.1.symm.trans name'.1
      have bytes : l = l' := Subtype.ext (by rw [← name.2.1, ← name'.2.1, length])
      subst bytes
      rw [ih name.2.2 name'.2.2]

theorem nameText_injective (short : (wire la).length ≤ maxcdname) (short' : (wire lb).length ≤ maxcdname)
    (same : nameText la = nameText lb)
    : la = lb := by
  obtain ⟨r, read, name⟩ := nsNamePton_text short (fun _ => 0)
  obtain ⟨r', read', name'⟩ := nsNamePton_text short' (fun _ => 0)
  rw [same, read'] at read
  cases read
  exact name.unique name'

/-- Two names have the same texts up to case exactly if they have the same labels up to case. -/
theorem lower_nameText_iff (short : (wire la).length ≤ maxcdname)
    (short' : (wire lb).length ≤ maxcdname)
    : lower (nameText la) = lower (nameText lb) ↔ SameName la lb := by
  rw [sameName_iff_lower, ← nameText_lower, ← nameText_lower]
  exact ⟨nameText_injective (by rwa [wire_lower]) (by rwa [wire_lower]), fun same => by rw [same]⟩

/-- A piece of a text that ends unescaped and in which each dot is escaped. -/
structure Quoted (text : List UInt8) : Prop where
  closed : escapedAfter backslash text false = false
  escaped : ∀ t u, text = t ++ dot :: u → escapedAfter backslash t false = true

theorem Quoted.append (first : Quoted a) (second : Quoted b) : Quoted (a ++ b) where
  closed := by rw [escapedAfter_append, first.closed, second.closed]
  escaped := by
    intro t u same
    rcases append_eq_append_dot same with ⟨v, inside, -⟩ | ⟨w, rfl, behind⟩
    · exact first.escaped t v inside
    · rw [escapedAfter_append, first.closed]
      exact second.escaped w u behind

theorem quoted_nil : Quoted [] := ⟨rfl, fun t u same => absurd same.symm (by simp)⟩

theorem quoted_backslash (c : UInt8) : Quoted [backslash, c] where
  closed := by simp [escapedAfter]
  escaped := by
    intro t u same
    rcases t with _ | ⟨first, _ | ⟨second, t⟩⟩
    · exact absurd (List.cons.inj same).1 (by decide)
    · rw [← (List.cons.inj same).1]
      rfl
    · have ends := (List.cons.inj (List.cons.inj same).2).2
      exact absurd ends.symm (by simp)

theorem quoted_singleton {c : UInt8} (noEscape : c ≠ backslash) (noDot : c ≠ dot) : Quoted [c] where
  closed := by simp [escapedAfter, noEscape]
  escaped := by
    intro t u same
    have member : dot ∈ [c] := by
      rw [same]
      simp
    exact absurd (mem_singleton.mp member).symm noDot

theorem digit_ne {d : Nat} (small : d < 10)
    : UInt8.ofNat ('0'.toNat + d) ≠ backslash ∧ UInt8.ofNat ('0'.toNat + d) ≠ dot :=
  ⟨(isDigit_ne (isDigit_digit small)).2, (isDigit_ne (isDigit_digit small)).1⟩

theorem quoted_byteText (c : UInt8) : Quoted (byteText c) := by
  have small : c.toNat < 256 := c.toNat_lt
  unfold byteText
  split
  · exact quoted_backslash c
  · rename_i plain
    split
    · have tens := digit_ne (show c.toNat % 100 / 10 < 10 by omega)
      have ones := digit_ne (show c.toNat % 10 < 10 by omega)
      exact (quoted_backslash _).append
        ((quoted_singleton tens.1 tens.2).append (quoted_singleton ones.1 ones.2))
    · have other := special_dot _ small (Bool.not_eq_true _ ▸ plain)
      exact quoted_singleton (mt toNat_eq_backslash.mpr other.1) (mt toNat_eq_dot.mpr other.2)

theorem Label.quoted_text (l : Label) : Quoted l.text := by
  rw [Label.text]
  induction l.1 with
  | nil => exact quoted_nil
  | cons c bytes ih => exact (quoted_byteText c).append ih

theorem nameText_cons_cons (l m : Label) (rest : List Label)
    : nameText (l :: m :: rest) = l.text ++ dot :: nameText (m :: rest) := rfl

theorem nameText_singleton (l : Label) : nameText [l] = l.text := append_nil _

theorem nameText_closed (nonroot : labels ≠ []) : escapedAfter backslash (nameText labels) false = false := by
  induction labels with
  | nil => exact absurd rfl nonroot
  | cons l rest ih =>
    cases rest with
    | nil =>
      rw [nameText_singleton]
      exact l.quoted_text.closed
    | cons m rest =>
      rw [nameText_cons_cons, escapedAfter_append, l.quoted_text.closed]
      exact ih (cons_ne_nil _ _)

/-- An unescaped dot in the text of a name separates two names. -/
theorem nameText_split (nonroot : labels ≠ []) (same : nameText labels = t ++ dot :: u)
    (unescaped : escapedAfter backslash t false = false)
    : ∃ front back, labels = front ++ back ∧ front ≠ [] ∧ back ≠ [] ∧ t = nameText front
      ∧ u = nameText back := by
  induction labels generalizing t with
  | nil => exact absurd rfl nonroot
  | cons l rest ih =>
    cases rest with
    | nil =>
      rw [nameText_singleton] at same
      rw [l.quoted_text.escaped t u same] at unescaped
      cases unescaped
    | cons m rest =>
      rw [nameText_cons_cons] at same
      rcases append_eq_append_dot same with ⟨v, inside, -⟩ | ⟨w, rfl, behind⟩
      · rw [l.quoted_text.escaped t v inside] at unescaped
        cases unescaped
      · cases w with
        | nil =>
          exact ⟨[l], m :: rest, rfl, cons_ne_nil _ _, cons_ne_nil _ _,
            by rw [append_nil, nameText_singleton], (List.cons.inj behind).2.symm⟩
        | cons c w =>
          rw [cons_append, List.cons.injEq] at behind
          obtain ⟨rfl, behind⟩ := behind
          rw [escapedAfter_append, l.quoted_text.closed] at unescaped
          obtain ⟨front, back, labels, nonempty, rest, head, tail⟩ :=
            ih (cons_ne_nil _ _) behind unescaped
          obtain ⟨m', front, rfl⟩ := exists_cons_of_ne_nil nonempty
          refine ⟨l :: m' :: front, back, by rw [labels]; rfl, cons_ne_nil _ _, rest, ?_, tail⟩
          rw [head, nameText_cons_cons]

private theorem nameText_append {front back : List Label} (first : front ≠ []) (second : back ≠ [])
    : nameText (front ++ back) = nameText front ++ dot :: nameText back := by
  induction front with
  | nil => exact absurd rfl first
  | cons l front ih =>
    cases front with
    | nil =>
      obtain ⟨m, back, rfl⟩ := exists_cons_of_ne_nil second
      rw [nameText_singleton]
      rfl
    | cons m front =>
      have rest := ih (cons_ne_nil _ _)
      rw [cons_append, cons_append, nameText_cons_cons, nameText_cons_cons,
        ← cons_append, rest, append_assoc]
      rfl

theorem nameText_last_dot (nonroot : labels ≠ []) (same : nameText labels = t ++ [dot])
    : escapedAfter backslash t false = true := by
  by_contra plain
  obtain ⟨front, back, -, -, rest, -, tail⟩ := nameText_split nonroot same (Bool.not_eq_true _ ▸ plain)
  obtain ⟨l, back, rfl⟩ := exists_cons_of_ne_nil rest
  have positive := l.text_length.1
  have length := congrArg List.length tail
  rw [nameText, length_append, length_nil] at length
  omega

/-- The look back over a run of backslashes finds whether the byte behind a text is escaped. -/
theorem escapedLoop_text (text more : List UInt8)
    : escapedLoop (text ++ more) text.length escaped
        = (escaped ^^ escapedAfter backslash text false) := by
  induction text using List.reverseRecOn generalizing escaped more with
  | nil =>
    rw [length_nil, escapedLoop, escapedAfter_nil, Bool.xor_false]
  | append_singleton text c ih =>
    have last : (text ++ [c] ++ more).getD text.length 0 = c := by simp
    rw [length_append, length_singleton, escapedLoop, escapedAfter_concat]
    by_cases same : c = backslash
    · rw [append_assoc, ih]
      cases escaped <;> simp [same]
    · simp [same]

theorem separatorLess_root : separatorLess (nameText []) = 0 := by decide

theorem separatorLess_nameText (nonroot : labels ≠ [])
    : separatorLess (nameText labels) = (nameText labels).length := by
  cases form : nameText labels using List.reverseRecOn with
  | nil => rfl
  | append_singleton t c =>
    have last : (t ++ [c]).getD ((t ++ [c]).length - 1) 0 = c := by simp
    rw [separatorLess, last]
    split
    · rename_i dots
      have escaped := nameText_last_dot nonroot (dots.2 ▸ form)
      have length : (t ++ [c]).length - 1 = t.length := by simp
      rw [length, escapedLoop_text, escaped, if_neg (by simp)]
    · rfl

theorem nameText_head (nonroot : labels ≠ []) : ∃ c rest, nameText labels = c :: rest ∧ c ≠ dot := by
  obtain ⟨l, rest, rfl⟩ := exists_cons_of_ne_nil nonroot
  obtain ⟨c, more, text, noDot⟩ := l.text_head
  exact ⟨c, more ++ moreText rest, by rw [nameText, text, cons_append],
    mt toNat_eq_dot.mpr noDot⟩

theorem nameText_ne_nil (labels : List Label) : nameText labels ≠ [] := by
  cases labels with
  | nil => exact cons_ne_nil _ _
  | cons l labels =>
    have positive := l.text_length.1
    intro empty
    have length := congrArg List.length empty
    rw [nameText, length_append, length_nil] at length
    omega

theorem lower_length (text : List UInt8) : (lower text).length = text.length := length_map _

/-- What `ns_samedomain` looks for: the same text, or one behind a separator. -/
theorem nsSamedomain_iff (nonroot : la ≠ []) (nonroot' : lb ≠ [])
    : nsSamedomain (nameText la) (nameText lb) = true ↔ lower (nameText la) = lower (nameText lb)
        ∨ ∃ t u, nameText la = t ++ dot :: u ∧ escapedAfter backslash t false = false
          ∧ lower u = lower (nameText lb) := by
  have string := zero_notMem_nameText la
  have positive := length_pos_of_ne_nil (nameText_ne_nil lb)
  rw [nsSamedomain, separatorLess_nameText nonroot, separatorLess_nameText nonroot']
  dsimp only
  rw [if_neg (by omega)]
  have shorter {t u : List UInt8} (same : nameText la = t ++ dot :: u)
      (equal : lower u = lower (nameText lb))
      : (nameText la).length = t.length + 1 + (nameText lb).length := by
    rw [same, ← lower_length (nameText lb), ← equal, lower_length, length_append, length_cons]
    omega
  by_cases longer : (nameText lb).length > (nameText la).length
  · rw [if_pos longer]
    refine iff_of_false Bool.false_ne_true ?_
    rintro (equal | ⟨t, u, same, -, equal⟩)
    · have length := congrArg List.length equal
      rw [lower_length, lower_length] at length
      omega
    · have length := shorter same equal
      omega
  rw [if_neg longer]
  by_cases equal : (nameText lb).length = (nameText la).length
  · rw [if_pos equal, decide_eq_true_eq, strncasecmp_eq_zero string equal.symm]
    refine ⟨.inl, fun found => found.elim id ?_⟩
    rintro ⟨t, u, same, -, lowered⟩
    have length := shorter same lowered
    omega
  rw [if_neg equal]
  have differ : lower (nameText la) ≠ lower (nameText lb) := fun same => by
    have length := congrArg List.length same
    rw [lower_length, lower_length] at length
    omega
  rw [or_iff_right differ]
  -- the text of `b` would begin at `diff`, behind a byte of its own
  obtain ⟨t, c, u, form, length⟩ : ∃ t c u, nameText la = t ++ c :: u
      ∧ u.length = (nameText lb).length := by
    have cut := take_append_drop ((nameText la).length - (nameText lb).length - 1) (nameText la)
    have rest := length_drop (i := (nameText la).length - (nameText lb).length - 1) (l := nameText la)
    cases tail : (nameText la).drop ((nameText la).length - (nameText lb).length - 1) with
    | nil =>
      rw [tail, length_nil] at rest
      omega
    | cons c u =>
      rw [tail, length_cons] at rest
      exact ⟨_, c, u, by rw [← tail, cut], by omega⟩
  have whole : (nameText la).length = t.length + (u.length + 1) := by
    rw [form, length_append, length_cons]
  have unique {t' u' : List UInt8} (same : nameText la = t' ++ dot :: u')
      (lowered : lower u' = lower (nameText lb))
      : t' = t ∧ dot = c ∧ u' = u := by
    have length' := shorter same lowered
    have split_ := append_inj (same.symm.trans form) (by omega)
    exact ⟨split_.1, List.cons.inj split_.2⟩
  have diff : (nameText la).length - (nameText lb).length = t.length + 1 := by omega
  have place : (nameText la).getD t.length 0 = c := by simp [form]
  have before : escapedLoop (nameText la) t.length false = escapedAfter backslash t false := by
    rw [form, escapedLoop_text, Bool.false_xor]
  have behind : (nameText la).drop (t.length + 1) = u := by
    rw [form]
    simp
  have found : (∃ t u, nameText la = t ++ dot :: u ∧ escapedAfter backslash t false = false
        ∧ lower u = lower (nameText lb))
      ↔ dot = c ∧ escapedAfter backslash t false = false ∧ lower u = lower (nameText lb) := by
    constructor
    · rintro ⟨t', u', same, unescaped, lowered⟩
      obtain ⟨rfl, stop, rfl⟩ := unique same lowered
      exact ⟨stop, unescaped, lowered⟩
    · rintro ⟨rfl, unescaped, lowered⟩
      exact ⟨t, u, form, unescaped, lowered⟩
  have noZero : 0 ∉ u := fun member => string (by rw [form]; simp [member])
  rw [found, diff, Nat.add_sub_cancel, place, before, behind]
  by_cases short : t.length + 1 < 2
  · rw [if_pos short]
    refine iff_of_false Bool.false_ne_true ?_
    rintro ⟨rfl, -, -⟩
    have empty : t = [] := length_eq_zero_iff.mp (by omega)
    obtain ⟨c, rest, text, noDot⟩ := nameText_head nonroot
    rw [empty, text] at form
    exact noDot (List.cons.inj form).1
  · rw [if_neg short]
    by_cases stop : c = dot
    · rw [if_neg (not_not_intro stop)]
      cases unescaped : escapedAfter backslash t false with
      | true => simp
      | false =>
        rw [if_neg Bool.false_ne_true, decide_eq_true_eq, strncasecmp_eq_zero noZero length]
        exact ⟨fun lowered => ⟨stop.symm, rfl, lowered⟩, fun all => all.2.2⟩
    · rw [if_pos stop]
      exact iff_of_false Bool.false_ne_true (fun all => stop all.1.symm)

variable {src : Memory UInt8}

/-- A label that is written is the text of its bytes, by induction on its length. -/
theorem ntopLabel_ok {dstsiz l cp : Nat} {out out' : List UInt8}
    (written : ntopLabel src dstsiz l cp out = .ok out')
    : out' = out ++ (src.slice cp l).flatMap byteText := by
  induction l generalizing cp out with
  | zero =>
    cases written
    rw [Memory.slice_zero, flatMap_nil, append_nil]
  | succ l ih =>
    have step : ntopLabel src dstsiz l (cp + 1) (out ++ byteText (src cp)) = .ok out' := by
      simp only [ntopLabel] at written
      rw [byteText]
      split at written
      · rename_i quoted
        split at written
        · cases written
        · rw [if_pos quoted]
          exact written
      · rename_i plain
        rw [if_neg plain]
        split at written
        · rename_i hidden
          split at written
          · cases written
          · rw [if_pos hidden]
            exact written
        · rename_i visible
          split at written
          · cases written
          · rw [if_neg visible]
            exact written
    rw [ih step, Memory.slice_succ, flatMap_cons, append_assoc]

theorem putChar_ok {dstsiz : Nat} {out out' : List UInt8} {c : Char}
    (put : putChar dstsiz out c = .ok out')
    : out' = out ++ [UInt8.ofNat c.toNat] := by
  rw [putChar] at put
  split at put
  · cases put
  · cases put
    rfl

theorem ok_of_bind {α β : Type} {first : Except Errno α} {next : α → Except Errno β} {result : β}
    (done : first >>= next = .ok result)
    : ∃ value, first = .ok value ∧ next value = .ok result := by
  cases first with
  | error e => cases done
  | ok value => exact ⟨value, rfl, done⟩

/-- What the loop writes behind the bytes `out`. -/
theorem ntopLoop_ok {dstsiz fuel cp n : Nat} {out : List UInt8} (name : HoldsName src cp labels)
    (started : out ≠ []) (written : ntopLoop src dstsiz fuel cp out = some (.ok (n, text)))
    : text = out ++ moreText labels := by
  induction labels generalizing cp out fuel with
  | nil =>
    obtain _ | fuel := fuel
    · cases written
    have zero : (src cp).toNat = 0 := toNat_eq_zero.mpr name
    simp only [ntopLoop, zero] at written
    rw [if_pos trivial, if_neg started, Option.some.injEq] at written
    obtain ⟨same, first, written⟩ := ok_of_bind written
    obtain ⟨stored, put, written⟩ := ok_of_bind written
    cases first
    cases written
    exact (append_nil _).symm
  | cons l rest ih =>
    obtain _ | fuel := fuel
    · cases written
    obtain ⟨length, bytes, tail⟩ := name
    have range := l.2
    simp only [ntopLoop, length] at written
    rw [if_neg (by omega), if_neg (by omega), if_pos started] at written
    cases label : (do
        let out ← putChar dstsiz out '.'
        ntopLabel src dstsiz l.1.length (cp + 1) out) with
    | error e =>
      simp only [label] at written
      cases written
    | ok out' =>
      simp only [label] at written
      obtain ⟨dotted, put, copied⟩ := ok_of_bind label
      have behind := ntopLabel_ok copied
      rw [putChar_ok put, bytes] at behind
      have nonempty : out' ≠ [] := by
        rw [behind]
        simp
      rw [ih tail nonempty written, behind, moreText, moreText, flatMap_cons, Label.text]
      simp

/-- Whatever the size of the buffer is, the text of a name that fits is the same. -/
theorem nsNameNtop_ok {dstsiz fuel n : Nat} (name : HoldsName src 0 labels)
    (written : nsNameNtop fuel src dstsiz = some (.ok (n, text)))
    : text = nameText labels := by
  rw [nsNameNtop] at written
  obtain _ | fuel := fuel
  · cases written
  cases labels with
  | nil =>
    have zero : (src 0).toNat = 0 := toNat_eq_zero.mpr name
    simp only [ntopLoop, zero] at written
    rw [if_pos trivial, Option.some.injEq] at written
    obtain ⟨root, put, written⟩ := ok_of_bind written
    obtain ⟨stored, -, written⟩ := ok_of_bind written
    cases written
    exact putChar_ok put
  | cons l rest =>
    obtain ⟨length, bytes, tail⟩ := name
    have range := l.2
    simp only [ntopLoop, length] at written
    rw [if_neg (by omega), if_neg (by omega)] at written
    cases label : ntopLabel src dstsiz l.1.length (0 + 1) [] with
    | error e =>
      simp only [bind, Except.bind, label] at written
      cases written
    | ok out =>
      simp only [bind, Except.bind, label] at written
      have first := ntopLabel_ok label
      rw [bytes] at first
      have nonempty : out ≠ [] := by
        rw [first]
        exact ne_nil_of_length_pos l.text_length.1
      rw [ntopLoop_ok tail nonempty written, first]
      rfl

/-- Whether the labels of `b` are, up to case, the last ones of `a`. -/
def IsSuffix (la lb : List Label) : Prop := ∃ front back, la = front ++ back ∧ SameName back lb

/-- Whether they are so and `a` has labels before them. -/
def IsProperSuffix (la lb : List Label) : Prop :=
  ∃ front back, la = front ++ back ∧ front ≠ [] ∧ SameName back lb

theorem wire_append_ge (front back : List Label) : (wire back).length ≤ (wire (front ++ back)).length := by
  rw [wire, wire, flatMap_append, length_append, length_append, length_append]
  omega

theorem SameName.length_eq (same : SameName la lb) : la.length = lb.length := List.Forall₂.length_eq same

/-- The text test decides by labels: cases and escapes are seen through. -/
theorem nsSamedomain_suffix (short : (wire la).length ≤ maxcdname) (short' : (wire lb).length ≤ maxcdname)
    : nsSamedomain (nameText la) (nameText lb) = true ↔ IsSuffix la lb := by
  by_cases root' : lb = []
  · subst root'
    have yes : nsSamedomain (nameText la) (nameText []) = true := by
      rw [nsSamedomain]
      exact if_pos rfl
    exact iff_of_true yes ⟨la, [], (append_nil la).symm, .nil⟩
  by_cases root : la = []
  · subst root
    have positive := length_pos_of_ne_nil (nameText_ne_nil lb)
    refine iff_of_false ?_ ?_
    · rw [nsSamedomain, separatorLess_root, separatorLess_nameText root']
      rw [if_neg (by omega), if_pos positive]
      exact Bool.false_ne_true
    · rintro ⟨front, back, empty, same⟩
      rw [(append_eq_nil_iff.mp empty.symm).2] at same
      cases same
      exact root' rfl
  rw [nsSamedomain_iff root root']
  constructor
  · rintro (equal | ⟨t, u, form, unescaped, lowered⟩)
    · exact ⟨[], la, rfl, (lower_nameText_iff short short').mp equal⟩
    · obtain ⟨front, back, rfl, -, -, -, rfl⟩ := nameText_split root form unescaped
      have fits := wire_append_ge front back
      exact ⟨front, back, rfl, (lower_nameText_iff (by omega) short').mp lowered⟩
  · rintro ⟨front, back, rfl, same⟩
    have fits := wire_append_ge front back
    have lowered := (lower_nameText_iff (by omega) short').mpr same
    by_cases first : front = []
    · subst first
      exact .inl lowered
    · have rest : back ≠ [] := by
        rintro rfl
        cases same
        exact root' rfl
      exact .inr ⟨nameText front, nameText back, nameText_append first rest, nameText_closed first,
        lowered⟩

/-- The canonical text of a name that is not the root: with a dot behind it, or the same text, if it ends
in an escaped dot behind three backslashes or more.
-/
theorem canonStem_nameText (nonroot : labels ≠ [])
    : canonStem (nameText labels) ++ [dot] = nameText labels ++ [dot]
      ∨ (canonStem (nameText labels) ++ [dot] = nameText labels ∧ ∃ t, nameText labels = t ++ [dot]) := by
  cases form : nameText labels using List.reverseRecOn with
  | nil => exact absurd form (nameText_ne_nil labels)
  | append_singleton t c =>
    by_cases last : c = dot
    · subst last
      have odd := escapedAfter_iff_odd.mp (nameText_last_dot nonroot form)
      rw [canonStem_dot, (exists_concat_backslash odd).1]
      by_cases single : escapeRun backslash t = 1
      · rw [if_pos single]
        exact .inl rfl
      · rw [if_neg single]
        exact .inr ⟨rfl, t, rfl⟩
    · rw [canonStem_other last]
      exact .inl rfl

/-- A text that ends in an escaped dot is not the text of another name with a dot behind it. -/
theorem nameText_concat_ne (nonroot : la ≠ []) (nonroot' : lb ≠ []) (last : nameText lb = t ++ [dot])
    : nameText la ++ [dot] ≠ nameText lb := by
  intro same
  have closed := nameText_closed nonroot
  rw [(append_inj' (same.trans last) rfl).1, nameText_last_dot nonroot' last] at closed
  cases closed

/-- The canonical texts tell the texts of names apart. -/
theorem canonStem_injective (same : canonStem (nameText la) ++ [dot] = canonStem (nameText lb) ++ [dot])
    : nameText la = nameText lb := by
  have rootOnly {labels : List Label} (nonroot : labels ≠ [])
      : canonStem (nameText labels) ++ [dot] ≠ [dot] := by
    obtain ⟨c, rest, form, noDot⟩ := nameText_head nonroot
    rcases canonStem_nameText nonroot with dotted | ⟨plain, -⟩
    · rw [dotted, form]
      exact fun equal => noDot (List.cons.inj equal).1
    · rw [plain, form]
      exact fun equal => noDot (List.cons.inj equal).1
  by_cases root : la = []
  · by_cases root' : lb = []
    · rw [root, root']
    · rw [root] at same
      exact absurd same.symm (rootOnly root')
  by_cases root' : lb = []
  · rw [root'] at same
    exact absurd same (rootOnly root)
  rcases canonStem_nameText root with dotted | ⟨plain, t, last⟩
  · rcases canonStem_nameText root' with dotted' | ⟨plain', t', last'⟩
    · rw [dotted, dotted'] at same
      exact append_cancel_right same
    · rw [dotted, plain'] at same
      exact absurd same (nameText_concat_ne root root' last')
  · rcases canonStem_nameText root' with dotted' | ⟨plain', -⟩
    · rw [plain, dotted'] at same
      exact absurd same.symm (nameText_concat_ne root' root last)
    · rwa [plain, plain'] at same

theorem mklower_eq_iff : ∀ n < 256, (mklower n = 46 ↔ n = 46) ∧ (mklower n = 92 ↔ n = 92) := by
  decide +kernel

theorem toLower_eq_dot {c : UInt8} : toLower c = dot ↔ c = dot := by
  rw [← UInt8.toNat_inj, toNat_toLower, ← UInt8.toNat_inj]
  exact (mklower_eq_iff _ c.toNat_lt).1

theorem toLower_eq_backslash {c : UInt8} : toLower c = backslash ↔ c = backslash := by
  rw [← UInt8.toNat_inj, toNat_toLower, ← UInt8.toNat_inj]
  exact (mklower_eq_iff _ c.toNat_lt).2

theorem getD_lower (text : List UInt8) (i : Nat) : (lower text).getD i 0 = toLower (text.getD i 0) := by
  have zero : (0 : UInt8) = toLower 0 := by decide
  rw [lower, zero, getD_map, ← zero]

/-- Case does not matter for the dots that are removed. -/
theorem canonStem_lower (text : List UInt8) : canonStem (lower text) = lower (canonStem text) := by
  have loop (n : Nat) : makecanonLoop (lower text) n = makecanonLoop text n := by
    induction n with
    | zero => rfl
    | succ n ih =>
      simp only [makecanonLoop, getD_lower, toLower_eq_dot, toLower_eq_backslash, ne_eq, ih]
  rw [canonStem, loop, lower_length, canonStem, lower, lower, map_take]

theorem lower_canonStem_iff
    : lower (canonStem (nameText la) ++ [dot]) = lower (canonStem (nameText lb) ++ [dot])
      ↔ lower (nameText la) = lower (nameText lb) := by
  have copy (labels : List Label) : lower (canonStem (nameText labels) ++ [dot])
      = canonStem (nameText (labels.map Label.lower)) ++ [dot] := by
    rw [lower_append, nameText_lower, canonStem_lower]
    rfl
  rw [copy, copy, ← nameText_lower, ← nameText_lower]
  exact ⟨canonStem_injective, fun same => by rw [same]⟩

private theorem nameText_length_le (labels : List Label) : (nameText labels).length ≤ 4 * (wire labels).length := by
  cases labels with
  | nil => decide
  | cons l labels =>
    have more : (moreText labels).length ≤ 4 * (wire labels).length := by
      induction labels with
      | nil => decide
      | cons m labels ih =>
        have length := m.text_length
        have step : moreText (m :: labels) = (dot :: m.text) ++ moreText labels := rfl
        rw [step, wire_cons, length_append, length_append, length_cons,
          length_label_wire]
        omega
    have length := l.text_length
    rw [nameText, wire_cons, length_append, length_append, length_label_wire]
    omega

theorem zero_notMem_copy (labels : List Label) : 0 ∉ canonStem (nameText labels) ++ [dot] := by
  intro member
  rcases mem_append.mp member with inside | last
  · exact zero_notMem_nameText labels (mem_of_mem_take inside)
  · exact absurd (mem_singleton.mp last) (by decide)

theorem nsSamename_iff (short : (wire la).length ≤ maxcdname) (short' : (wire lb).length ≤ maxcdname)
    : nsSamename (nameText la) (nameText lb) = 1 ↔ SameName la lb := by
  have limit : maxcdname = 255 := rfl
  have buffer : nsMaxdname = 1025 := rfl
  have length := nameText_length_le la
  have length' := nameText_length_le lb
  rw [nsSamename, nsMakecanon_eq (by omega), nsMakecanon_eq (by omega)]
  dsimp only
  rw [← lower_nameText_iff short short', ← lower_canonStem_iff,
    ← strcasecmp_eq_zero (zero_notMem_copy la) (zero_notMem_copy lb)]
  split
  · exact iff_of_true rfl ‹_›
  · exact iff_of_false (by decide) ‹_›

private theorem nsSubdomain_properSuffix (short : (wire la).length ≤ maxcdname)
    (short' : (wire lb).length ≤ maxcdname)
    : nsSubdomain (nameText la) (nameText lb) = true ↔ IsProperSuffix la lb := by
  rw [nsSubdomain, Bool.and_eq_true, decide_eq_true_eq, ne_eq, nsSamename_iff short short',
    nsSamedomain_suffix short short']
  constructor
  · rintro ⟨differ, front, back, form, same⟩
    refine ⟨front, back, form, ?_, same⟩
    rintro rfl
    exact differ (form ▸ same)
  · rintro ⟨front, back, form, more, same⟩
    refine ⟨fun equal => ?_, front, back, form, same⟩
    have positive := length_pos_of_ne_nil more
    have size := equal.length_eq
    rw [form, length_append, ← same.length_eq] at size
    omega

theorem isSuffix_iff_lower : IsSuffix la lb ↔ lb.map Label.lower <:+ la.map Label.lower := by
  constructor
  · rintro ⟨front, back, rfl, same⟩
    rw [← sameName_iff_lower.mp same, map_append]
    exact suffix_append ..
  · rintro ⟨front, split⟩
    obtain ⟨front', back, rfl, -, same⟩ := map_eq_append_iff.mp split.symm
    exact ⟨front', back, rfl, sameName_iff_lower.mpr same⟩

/-- Up to `ns_samename`, the names are ordered as a tree. -/
theorem nsSamedomain_tree {lc : List Label} (short : (wire la).length ≤ maxcdname)
    (short' : (wire lb).length ≤ maxcdname) (short'' : (wire lc).length ≤ maxcdname)
    : (nsSamedomain (nameText la) (nameText lb) = true → nsSamedomain (nameText lb) (nameText lc) = true →
        nsSamedomain (nameText la) (nameText lc) = true)
      ∧ (nsSamedomain (nameText la) (nameText lb) = true ∧ nsSamedomain (nameText lb) (nameText la) = true
        ↔ nsSamename (nameText la) (nameText lb) = 1)
      ∧ (nsSamedomain (nameText la) (nameText lb) = true → nsSamedomain (nameText la) (nameText lc) = true →
        nsSamedomain (nameText lb) (nameText lc) = true
          ∨ nsSamedomain (nameText lc) (nameText lb) = true) := by
  rw [nsSamename_iff short short', sameName_iff_lower]
  simp only [nsSamedomain_suffix, short, short', short'', isSuffix_iff_lower]
  refine ⟨fun ab bc => bc.trans ab, ⟨fun both => ?_, fun same => ?_⟩,
    fun ab ac => (suffix_or_suffix_of_suffix ab ac).symm⟩
  · exact both.2.eq_of_length_le both.1.length_le
  · rw [same]
    exact ⟨suffix_rfl, suffix_rfl⟩

/-- The names with the texts "a\..B", "A\..b" and "b". -/
theorem nsSamedomain_tree_quoted
    : nsSamename (nameText [⟨[97, 46], by decide⟩, ⟨[66], by decide⟩])
        (nameText [⟨[65, 46], by decide⟩, ⟨[98], by decide⟩]) = 1
      ∧ (nsSamedomain (nameText [⟨[65, 46], by decide⟩, ⟨[98], by decide⟩])
          (nameText [⟨[98], by decide⟩]) = true
        ∨ nsSamedomain (nameText [⟨[98], by decide⟩])
          (nameText [⟨[65, 46], by decide⟩, ⟨[98], by decide⟩]) = true) := by
  obtain ⟨-, same, comparable⟩ := @nsSamedomain_tree [⟨[97, 46], by decide⟩, ⟨[66], by decide⟩]
    [⟨[65, 46], by decide⟩, ⟨[98], by decide⟩] [⟨[98], by decide⟩] (by decide) (by decide) (by decide)
  exact ⟨same.mp ⟨by decide, by decide⟩, comparable (by decide) (by decide)⟩

/-- On the texts of valid names `ns_samedomain` and `ns_subdomain` compare labels. -/
theorem nsSamedomain_names {src src' : Memory UInt8} {fuel fuel' dstsiz dstsiz' n n' : Nat}
    {ta tb : List UInt8} (name : HoldsName src 0 la) (name' : HoldsName src' 0 lb)
    (short : (wire la).length ≤ maxcdname) (short' : (wire lb).length ≤ maxcdname)
    (text : nsNameNtop fuel src dstsiz = some (.ok (n, ta)))
    (text' : nsNameNtop fuel' src' dstsiz' = some (.ok (n', tb)))
    : (nsSamedomain ta tb = true ↔ IsSuffix la lb)
      ∧ (nsSubdomain ta tb = true ↔ IsProperSuffix la lb) := by
  rw [nsNameNtop_ok name text, nsNameNtop_ok name' text']
  exact ⟨nsSamedomain_suffix short short', nsSubdomain_properSuffix short short'⟩

/-- The names of the labels "a.", "B" and of the label "b". -/
theorem nsSamedomain_names_quoted
    : ∃ ta tb, nsNameNtop 4 (Memory.store (fun _ => 0) 0 [2, 97, 46, 1, 66, 0]) 6
          = some (.ok (6, ta))
      ∧ nsNameNtop 4 (Memory.store (fun _ => 0) 0 [1, 98, 0]) 1025 = some (.ok (2, tb))
      ∧ (nsSamedomain ta tb = true ↔ IsSuffix [⟨[97, 46], by decide⟩, ⟨[66], by decide⟩]
        [⟨[98], by decide⟩])
      ∧ (nsSubdomain ta tb = true ↔ IsProperSuffix [⟨[97, 46], by decide⟩, ⟨[66], by decide⟩]
        [⟨[98], by decide⟩]) := by
  have name : HoldsName (Memory.store (fun _ => 0) 0 [2, 97, 46, 1, 66, 0]) 0
      [⟨[97, 46], by decide⟩, ⟨[66], by decide⟩] :=
    ⟨rfl, rfl, rfl, rfl, rfl⟩
  have name' : HoldsName (Memory.store (fun _ => 0) 0 [1, 98, 0]) 0 [⟨[98], by decide⟩] :=
    ⟨rfl, rfl, rfl⟩
  have text : nsNameNtop 4 (Memory.store (fun _ => 0) 0 [2, 97, 46, 1, 66, 0]) 6
      = some (.ok (6, [97, 92, 46, 46, 66])) := rfl
  have text' : nsNameNtop 4 (Memory.store (fun _ => 0) 0 [1, 98, 0]) 1025 = some (.ok (2, [98])) := rfl
  exact ⟨_, _, text, text', nsSamedomain_names name name' (by decide) (by decide) text text'⟩

end Nglibc.Resolv
