import Mathlib.Data.List.TakeWhile
import Nglibc.Stdio.FormatArguments

/-! The rounds of `printf_core` over a format: each one takes a piece of text or a conversion. -/

namespace Nglibc.Stdio

open List

/-- A literal or a pair `%%`. -/
def Item.IsText : Item → Prop
  | .conv _ => False
  | _ => True

/-- The unit that stands for a literal or for `%%`. -/
def Item.textUnit : Item → Nat
  | .literal u => u
  | _ => '%'.toNat

theorem itemUnits_cons (item : Item) (rest : List Item)
    : itemUnits (item :: rest) = item.units ++ itemUnits rest := flatMap_cons

theorem itemUnits_append (items rest : List Item)
    : itemUnits (items ++ rest) = itemUnits items ++ itemUnits rest := flatMap_append

variable {c : Conversion} {items : List Item}

/-- Behind its `%` a conversion has a unit other than `%`. -/
theorem first_units (isWidth : c.width.IsWidth)
    : ∃ u more, c.units = u :: more ∧ u ≠ 37 := by
  have first : firstUnit (c.units ++ []) ≠ 37 := by
    rw [units_append]
    cases c.pos with
    | none =>
      refine first_flags_append c.flags ?_ (fun flag => (flagUnit_range flag).2.1)
      have width := first_widthOn isWidth []
      omega
    | some k =>
      rw [positionUnits, decimal]
      cases (Nat.digits 10 k).reverse with
      | nil =>
        change 36 ≠ 37
        decide
      | cons d ds =>
        change 48 + d ≠ 37
        omega
  cases units : c.units with
  | nil =>
    have length : c.units.length = 0 := by rw [units]; rfl
    simp [Conversion.units] at length
  | cons u more =>
    rw [units] at first
    exact ⟨u, more, rfl, first⟩

theorem itemUnits_conv (wf : c.WellFormed) (rest : List Item)
    : ∃ u more, itemUnits (.conv c :: rest) = 37 :: u :: more ∧ u ≠ 37 := by
  obtain ⟨u, more, units, other⟩ := first_units wf.width
  refine ⟨u, more ++ itemUnits rest, ?_, other⟩
  rw [itemUnits_cons, Item.units, units]
  rfl

def Item.isLiteral : Item → Bool
  | .literal _ => true
  | _ => false

def Item.isPercent : Item → Bool
  | .percent => true
  | _ => false

/-- The piece of text at the start of a format: literals, and pairs `%%` behind them. -/
def nextChunk (items : List Item) : List Item × List Item :=
  let more := items.dropWhile Item.isLiteral
  (items.takeWhile Item.isLiteral ++ more.takeWhile Item.isPercent, more.dropWhile Item.isPercent)

/-- By induction on the items. -/
theorem readPercents_units (wf : ∀ item ∈ items, item.WellFormed)
    : readPercents (itemUnits items)
      = ((items.takeWhile Item.isPercent).length, itemUnits (items.dropWhile Item.isPercent)) := by
  induction items with
  | nil => rfl
  | cons item rest ih =>
    cases item with
    | literal u =>
      have other := (wf _ mem_cons_self).1
      rw [dropWhile_cons_of_neg (by simp [Item.isPercent]), itemUnits_cons, Item.units,
        cons_append, nil_append]
      cases itemUnits rest with
      | nil => rfl
      | cons v more =>
        rw [readPercents, if_neg (fun h => other h.1)]
        rfl
    | percent =>
      rw [itemUnits_cons,
        Item.units, cons_append, cons_append, nil_append, readPercents,
        ih (fun item member => wf item (mem_cons_of_mem _ member))]
      rfl
    | conv c =>
      obtain ⟨u, more, units, other⟩ := itemUnits_conv (wf _ mem_cons_self) rest
      rw [dropWhile_cons_of_neg (by simp [Item.isPercent]), units, readPercents,
        if_neg (fun h => other h.2)]
      rfl

private theorem literals_units (wf : ∀ item ∈ items, item.WellFormed)
    : (itemUnits items).takeWhile (fun u => u ≠ '%'.toNat)
        = (items.takeWhile Item.isLiteral).map Item.textUnit
      ∧ (itemUnits items).dropWhile (fun u => u ≠ '%'.toNat)
        = itemUnits (items.dropWhile Item.isLiteral) := by
  induction items with
  | nil => exact ⟨rfl, rfl⟩
  | cons item rest ih =>
    cases item with
    | literal u =>
      obtain ⟨taken, dropped⟩ := ih (fun item member => wf item (mem_cons_of_mem _ member))
      have other : u ≠ 37 := (wf _ mem_cons_self).1
      rw [itemUnits_cons, Item.units, cons_append, nil_append,
        takeWhile_cons_of_pos (by simpa using other),
        dropWhile_cons_of_pos (by simpa using other), taken, dropped]
      exact ⟨rfl, rfl⟩
    | percent => exact ⟨rfl, rfl⟩
    | conv c => exact ⟨rfl, rfl⟩

theorem itemUnits_literals (items : List Item)
    : itemUnits (items.takeWhile Item.isLiteral)
      = (items.takeWhile Item.isLiteral).map Item.textUnit := by
  induction items with
  | nil => rfl
  | cons item rest ih =>
    cases item with
    | literal u => rw [takeWhile_cons_of_pos rfl, itemUnits_cons, ih]; rfl
    | _ => rfl

/-- Half of the units of pairs `%%` stand for them. -/
theorem take_percents (items : List Item) (s : List Nat)
    : (itemUnits (items.takeWhile Item.isPercent) ++ s).take (items.takeWhile Item.isPercent).length
      = (items.takeWhile Item.isPercent).map Item.textUnit := by
  have pairs : items.takeWhile Item.isPercent
      = List.replicate (items.takeWhile Item.isPercent).length .percent := by
    refine eq_replicate_of_mem (fun item member => ?_)
    have percent := mem_takeWhile_imp member
    cases item with
    | percent => rfl
    | _ => cases percent
  generalize (items.takeWhile Item.isPercent).length = k at pairs
  rw [pairs]
  have units : itemUnits (List.replicate k .percent) = List.replicate (2 * k) '%'.toNat := by
    clear pairs
    induction k with
    | zero => rfl
    | succ k ih =>
      rw [replicate_succ, itemUnits_cons, ih, Nat.mul_succ, Nat.add_comm, Nat.add_comm 2]
      rfl
  rw [units, take_append_of_le_length (by simp; omega), take_replicate,
    Nat.min_eq_left (by omega), map_replicate]
  rfl

theorem readLiteral_units (wf : ∀ item ∈ items, item.WellFormed)
    : readLiteral (itemUnits items)
      = ((nextChunk items).1.map Item.textUnit, itemUnits (nextChunk items).2) := by
  obtain ⟨taken, dropped⟩ := literals_units wf
  have wfMore : ∀ item ∈ items.dropWhile Item.isLiteral, item.WellFormed := fun item member =>
    wf item ((dropWhile_suffix _).subset member)
  have whole : itemUnits items = (items.takeWhile Item.isLiteral).map Item.textUnit
        ++ (itemUnits ((items.dropWhile Item.isLiteral).takeWhile Item.isPercent)
          ++ itemUnits ((items.dropWhile Item.isLiteral).dropWhile Item.isPercent)) := by
    rw [← itemUnits_append, takeWhile_append_dropWhile, ← itemUnits_literals,
      ← itemUnits_append, takeWhile_append_dropWhile]
  unfold readLiteral
  rw [taken, dropped, readPercents_units wfMore, whole]
  dsimp only
  rw [take_length_add_append, take_percents]
  simp only [nextChunk, map_append]

theorem nextChunk_append (items : List Item) : (nextChunk items).1 ++ (nextChunk items).2 = items := by
  unfold nextChunk
  rw [append_assoc, takeWhile_append_dropWhile, takeWhile_append_dropWhile]

theorem nextChunk_text (items : List Item) : ∀ item ∈ (nextChunk items).1, item.IsText := by
  intro item member
  rcases mem_append.mp member with member | member
  all_goals
    have kind := mem_takeWhile_imp member
    cases item with
    | conv c => cases kind
    | _ => trivial

theorem nextChunk_ne_nil {item : Item} (text : item.IsText) (rest : List Item)
    : (nextChunk (item :: rest)).1 ≠ [] := by
  cases item with
  | conv c => exact text.elim
  | literal u => exact cons_ne_nil _ _
  | percent => exact cons_ne_nil _ _

theorem readLiteral_text {chunk rest : List Item} (split : nextChunk (chunk ++ rest) = (chunk, rest))
    (wf : ∀ item ∈ chunk ++ rest, item.WellFormed)
    : readLiteral (itemUnits (chunk ++ rest)) = (chunk.map Item.textUnit, itemUnits rest) := by
  rw [readLiteral_units wf, split]

theorem readLiteral_conv {rest : List Item} (wf : ∀ item ∈ Item.conv c :: rest, item.WellFormed)
    : readLiteral (itemUnits (.conv c :: rest)) = ([], itemUnits (.conv c :: rest)) := by
  rw [readLiteral_units wf]
  rfl

/-- A property of formats, by the rounds over them. -/
@[elab_as_elim]
theorem items_induction {motive : List Item → Prop} (nil : motive [])
    (text : ∀ chunk rest : List Item, chunk ≠ [] → (∀ item ∈ chunk, item.IsText) →
      nextChunk (chunk ++ rest) = (chunk, rest) →
      (∀ item ∈ chunk ++ rest, item.WellFormed) → motive rest → motive (chunk ++ rest))
    (conv : ∀ (c : Conversion) (rest : List Item),
      (∀ item ∈ Item.conv c :: rest, item.WellFormed) → motive rest → motive (.conv c :: rest))
    (items : List Item) (wf : ∀ item ∈ items, item.WellFormed)
    : motive items := by
  induction length : items.length using Nat.strong_induction_on generalizing items with
  | _ n ih =>
    cases items with
    | nil => exact nil
    | cons item rest =>
      have wfRest : ∀ item' ∈ rest, item'.WellFormed := fun item' member =>
        wf item' (mem_cons_of_mem _ member)
      rw [length_cons] at length
      cases kind : item with
      | conv c =>
        rw [kind] at wf
        exact conv c rest wf (ih rest.length (by omega) rest wfRest rfl)
      | _ =>
        have isText : item.IsText := by rw [kind]; trivial
        have whole := nextChunk_append (item :: rest)
        have positive := length_pos_iff.mpr (nextChunk_ne_nil isText rest)
        have lengths := congrArg List.length whole
        rw [length_append, length_cons] at lengths
        rw [← kind, ← whole]
        rw [← whole] at wf
        refine text _ _ (nextChunk_ne_nil isText rest) (nextChunk_text _) ?_ wf
          (ih _ (by omega) _ ?_ rfl)
        · rw [whole]
        · exact fun item' member => wf item' (mem_append_right _ member)

theorem length_itemUnits (items : List Item) : items.length ≤ (itemUnits items).length := by
  induction items with
  | nil => exact Nat.le_refl 0
  | cons item items ih =>
    have positive : 1 ≤ item.units.length := by cases item <;> simp [Item.units]
    rw [itemUnits_cons, length_append, length_cons]
    omega

theorem itemUnits_ne_nil {chunk : List Item} (nonempty : chunk ≠ []) (rest : List Item)
    : itemUnits (chunk ++ rest) ≠ [] ∧
      (itemUnits rest).length < (itemUnits (chunk ++ rest)).length := by
  have positive := length_pos_iff.mpr nonempty
  have length := length_itemUnits chunk
  rw [itemUnits_append]
  constructor
  · intro empty
    rw [(append_eq_nil_iff.mp empty).1] at length
    simp only [length_nil] at length
    omega
  · rw [length_append]
    omega

theorem units_map {s : List Nat} (narrow : ∀ u ∈ s, u < 256) : units (s.map UInt8.ofNat) = s := by
  rw [units, map_map]
  conv_rhs => rw [← map_id s]
  refine map_congr_left (fun u member => ?_)
  have bound := narrow u member
  simp only [Function.comp_apply, UInt8.toNat_ofNat', id]
  omega

theorem decimal_narrow (k : Nat) : ∀ u ∈ decimal k, u < 256 := by
  intro u member
  obtain ⟨d, digit, rfl⟩ := mem_map.mp member
  have small := Nat.digits_lt_base (by omega) (mem_reverse.mp digit)
  rw [digitUnit_eq]
  omega

private theorem Amount.units_narrow {amount : Amount} (digits : amount.IsPrecision)
    : ∀ u ∈ amount.units, u < 256 := by
  intro u member
  cases amount with
  | none => cases member
  | digits ds =>
    obtain ⟨d, digit, rfl⟩ := mem_map.mp member
    have small : d < 10 := digits d digit
    rw [digitUnit_eq]
    omega
  | next =>
    rw [mem_singleton.mp member]
    decide
  | numbered k =>
    rcases mem_cons.mp member with rfl | member
    · decide
    · rcases mem_append.mp member with member | member
      · exact decimal_narrow k u member
      · rw [mem_singleton.mp member]
        decide

theorem Amount.IsWidth.isPrecision {amount : Amount} (isWidth : amount.IsWidth)
    : amount.IsPrecision := by
  cases amount with
  | digits ds => exact isWidth.1
  | _ => trivial

private theorem Conversion.units_narrow (wf : c.WellFormed)
    : ∀ u ∈ c.units, u < 256 := by
  intro u member
  rcases mem_append.mp member with member | member
  · cases pos : c.pos with
    | none =>
      rw [pos] at member
      cases member
    | some k =>
      rw [pos] at member
      rcases mem_append.mp member with member | member
      · exact decimal_narrow k u member
      · rw [mem_singleton.mp member]
        decide
  · rcases mem_append.mp member with member | member
    · obtain ⟨flag, -, rfl⟩ := mem_map.mp member
      have range := flagUnit_range flag
      omega
    · rcases mem_append.mp member with member | member
      · exact Amount.units_narrow wf.width.isPrecision u member
      · rcases mem_append.mp member with member | member
        · unfold precisionUnits at member
          split at member
          · cases member
          · rcases mem_cons.mp member with rfl | member
            · decide
            · exact Amount.units_narrow wf.prec u member
        · rcases mem_append.mp member with member | member
          · have narrow : ∀ m : Modifier, ∀ u ∈ m.units, u < 256 := by
              intro m
              cases m <;> decide
            exact narrow c.modifier u member
          · rw [mem_singleton.mp member]
            have range := letter_range c.conv
            omega

theorem units_itemBytes (wf : ∀ item ∈ items, item.WellFormed)
    : units (itemBytes items) = itemUnits items := by
  refine units_map (fun u member => ?_)
  obtain ⟨item, found, inside⟩ := mem_flatMap.mp member
  have wfItem := wf item found
  cases item with
  | literal v =>
    rw [mem_singleton.mp inside]
    exact wfItem.2.2
  | percent =>
    have percent : ∀ u ∈ Item.percent.units, u < 256 := by decide
    exact percent u inside
  | conv c =>
    rcases mem_cons.mp inside with rfl | inside
    · decide
    · exact Conversion.units_narrow wfItem u inside

variable {F σ : Type} {env : Env F} {sink : Sink σ} {s : σ} {fuel : Nat} {cnt l : Int}
  {core : Core F}

theorem printLoop_nil
    : printLoop env sink (fuel + 1) cnt l [] core s
      = if l > intMax - cnt then (.error (.errno .eoverflow), s) else (.ok (cnt + l), s) := by
  rfl

def chunkBytes (chunk : List Item) : List UInt8 := (chunk.map Item.textUnit).map UInt8.ofNat

theorem printLoop_text {chunk rest : List Item} (nonempty : chunk ≠ [])
    (read : readLiteral (itemUnits (chunk ++ rest)) = (chunk.map Item.textUnit, itemUnits rest))
    : printLoop env sink (fuel + 1) cnt l (itemUnits (chunk ++ rest)) core s
      = if l > intMax - cnt ∨ chunk.length > intMax - (cnt + l) then
          (.error (.errno .eoverflow), s)
        else
          printLoop env sink fuel (cnt + l) chunk.length (itemUnits rest) core
            (sink.out (chunkBytes chunk) s) := by
  have texts : chunk.map Item.textUnit ≠ [] := by simpa using nonempty
  rw [printLoop]
  by_cases past : l > intMax - cnt
  · rw [if_pos past, if_pos (.inl past)]
  · rw [if_neg past]
    dsimp only
    rw [if_neg (itemUnits_ne_nil nonempty rest).1, read]
    rw [length_map]
    by_cases long : (chunk.length : Int) > intMax - (cnt + l)
    · rw [if_pos long, if_pos (.inr long)]
    · rw [if_neg long, if_pos texts, if_neg (not_or.mpr ⟨past, long⟩)]
      rfl

/-- A directive that was read, with its argument. -/
def printDirective (env : Env F) (sink : Sink σ) (cnt : Int) (d : Directive)
    (arg : Option (Arg F)) (next : Int → σ → Except Fault Int × σ) (s : σ)
    : Except Fault Int × σ :=
  if sink.err s then (.ok (-1), s)
  else
    match convert env cnt d arg with
    | .error e => (.error e, s)
    | .ok (pieces, l) => next l (pieces.foldl (fun s piece => sink.out piece s) s)

theorem printLoop_conv {rest : List Item}
    (read : readLiteral (itemUnits (.conv c :: rest)) = ([], itemUnits (.conv c :: rest)))
    : printLoop env sink (fuel + 1) cnt l (itemUnits (.conv c :: rest)) core s
      = if l > intMax - cnt then (.error (.errno .eoverflow), s)
        else
          match readDirective true (c.units ++ itemUnits rest) core with
          | .error e => (.error e, sink.out [] s)
          | .ok (d, fmt, core) =>
            match core.fetch d with
            | .error e => (.error e, sink.out [] s)
            | .ok (arg, core) =>
              printDirective env sink (cnt + l) d arg
                (fun l' s => printLoop env sink fuel (cnt + l) l' fmt core s)
                (sink.out [] s) := by
  have units : itemUnits (.conv c :: rest) = '%'.toNat :: (c.units ++ itemUnits rest) := rfl
  rw [printLoop]
  by_cases past : l > intMax - cnt
  · rw [if_pos past, if_pos past]
  · rw [if_neg past, if_neg past]
    dsimp only
    rw [if_neg (by rw [units]; exact cons_ne_nil _ _), read]
    rw [if_neg (by simp only [length_nil]; omega), units, drop_one]
    rfl

end Nglibc.Stdio
