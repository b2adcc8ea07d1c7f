import Mathlib.Tactic

/-! Module ids for thread-local storage: they are assigned when a module is mapped, entered in a list
of arrays when it is loaded, and given back when it is unloaded. An index in the whole list is the
position in an array plus the displacement of the array.
-/

namespace Nglibc.TlsModid

variable {α : Type}

/-- The entries `slotinfo[i].map` of each list element, where `none` is `NULL`. -/
abbrev SlotinfoList (α : Type) := List (List (Option α))

structure Vars (α : Type) where
  staticNelem : Nat
  list : SlotinfoList α
  maxDtvIdx : Nat
  dtvGaps : Bool

/-- The inner loop of `_dl_assign_tls_modid`, over the rest of an array: the index where it ends, and
whether a free entry stands there. A failed assertion gives `none`.
-/
def scan (maxDtvIdx : Nat) : List (Option α) → Nat → Option (Nat × Bool)
  | [], result => some (result, false)
  | none :: _, result => some (result, true)
  | some _ :: rest, result =>
    if result + 1 ≤ maxDtvIdx + 1 then scan maxDtvIdx rest (result + 1) else none

/-- The outer loop. A free entry is marked as used. -/
def findGap (maxDtvIdx : Nat) (l : α)
    : SlotinfoList α → Nat → Nat → Option (Nat × SlotinfoList α)
  | [], _, result => some (result, [])
  | slots :: next, disp, result =>
    -- Below `disp` the difference wraps, and then it is not less than the length.
    if disp ≤ result ∧ result - disp < slots.length then
      match scan maxDtvIdx (slots.drop (result - disp)) result with
      | none => none
      | some (result, true) => some (result, slots.set (result - disp) (some l) :: next)
      | some (result, false) =>
        (findGap maxDtvIdx l next (disp + slots.length) result).map
          fun (result, next) => (result, slots :: next)
    else
      (findGap maxDtvIdx l next (disp + slots.length) result).map
        fun (result, next) => (result, slots :: next)

/-- `_dl_assign_tls_modid`, with the id. -/
def Vars.assign (v : Vars α) (l : α) : Option (Nat × Vars α) :=
  if v.dtvGaps then
    let found :=
      if v.staticNelem + 1 ≤ v.maxDtvIdx then
        findGap v.maxDtvIdx l v.list 0 (v.staticNelem + 1)
      else some (v.staticNelem + 1, v.list)
    match found with
    | none => none
    | some (result, list) =>
      if result > v.maxDtvIdx then
        if result = v.maxDtvIdx + 1 then
          some (v.maxDtvIdx + 1, { v with list, dtvGaps := false, maxDtvIdx := v.maxDtvIdx + 1 })
        else none
      else some (result, { v with list })
  else some (v.maxDtvIdx + 1, { v with maxDtvIdx := v.maxDtvIdx + 1 })

/-- `TLS_SLOTINFO_SURPLUS` -/
def surplus : Nat := 62

def enter (slots : List (Option α)) (i : Nat) (l : α) (doAdd : Bool) : List (Option α) :=
  if doAdd then slots.set i (some l) else slots

/-- The loop of `_dl_add_to_slotinfo`, with the answer of `malloc`. The result says whether there was
memory, and a failed assertion gives `none`.
-/
def addToSlotinfo (l : α) (doAdd malloc : Bool) : SlotinfoList α → Nat
    → Option (Bool × SlotinfoList α)
  | [], idx =>
    if idx = 0 then
      if malloc then some (true, [enter (List.replicate surplus none) 0 l doAdd])
      else some (false, [])
    else none
  | slots :: next, idx =>
    if idx < slots.length then some (true, enter slots idx l doAdd :: next)
    else
      (addToSlotinfo l doAdd malloc next (idx - slots.length)).map
        fun (ok, next) => (ok, slots :: next)

/-- What `remove_slotinfo` leaves: the list, the new maximum, whether it sets `dl_tls_dtv_gaps`, and
its result.
-/
structure Removal (α : Type) where
  list : SlotinfoList α
  maxDtvIdx : Nat
  gaps : Bool
  found : Bool

/-- The search of `remove_slotinfo` for a used entry below position `k`, down to `bound`. An access
behind the array gives `none`.
-/
def searchBack (slots : List (Option α)) (bound : Nat) : Nat → Option (Option Nat)
  | 0 => some none
  | k + 1 =>
    if k + 1 > bound then
      match slots[k]? with
      | none => none
      | some none => searchBack slots bound k
      | some (some _) => some (some k)
    else some none

def removeSlotinfo (staticNelem maxDtvIdx idx : Nat) (shouldBeThere : Bool)
    : SlotinfoList α → Nat → Option (Removal α)
  | [], _ => none
  | slots :: next, disp =>
    let bound := if disp = 0 then 1 + staticNelem else 0
    let search (slots : List (Option α)) (next : SlotinfoList α) (k : Nat) :=
      (searchBack slots bound k).map fun result =>
        match result with
        | some i => (⟨slots :: next, disp + i, false, true⟩ : Removal α)
        | none => ⟨slots :: next, maxDtvIdx, false, false⟩
    if idx - disp ≥ slots.length then
      match next with
      | [] => if shouldBeThere then none else search slots [] (idx - disp)
      | _ :: _ =>
        match removeSlotinfo staticNelem maxDtvIdx idx shouldBeThere next (disp + slots.length) with
        | none => none
        | some r =>
          if r.found then some { r with list := slots :: r.list }
          else search slots r.list slots.length
    else
      let slots := slots.set (idx - disp) none
      if idx ≠ maxDtvIdx then some ⟨slots :: next, maxDtvIdx, true, true⟩
      else search slots next (idx - disp)

/-- What `_dl_close_worker` makes of it. -/
def Vars.remove (v : Vars α) (idx : Nat) (shouldBeThere : Bool) : Option (Vars α) :=
  (removeSlotinfo v.staticNelem v.maxDtvIdx idx shouldBeThere v.list 0).map fun r =>
    { v with
      list := r.list
      maxDtvIdx := if r.found then r.maxDtvIdx else v.staticNelem
      dtvGaps := r.gaps || v.dtvGaps }

/-- The module in an entry, if the entry exists and is used. -/
def slot (list : SlotinfoList α) (i : Nat) : Option α := list.flatten[i]?.join

def total (list : SlotinfoList α) : Nat := list.flatten.length

@[simp] theorem slot_nil (i : Nat) : slot ([] : SlotinfoList α) i = none := rfl

@[simp] theorem total_nil : total ([] : SlotinfoList α) = 0 := rfl

@[simp] theorem total_cons (slots : List (Option α)) (next : SlotinfoList α)
    : total (slots :: next) = slots.length + total next := by
  simp [total]

variable {slots : List (Option α)}

theorem slot_left {i : Nat} (inside : i < slots.length) (next : SlotinfoList α)
    : slot (slots :: next) i = slots[i]?.join := by
  rw [slot, List.flatten_cons, List.getElem?_append_left inside]

theorem slot_right {i : Nat} (outside : slots.length ≤ i) (next : SlotinfoList α)
    : slot (slots :: next) i = slot next (i - slots.length) := by
  rw [slot, List.flatten_cons, List.getElem?_append_right outside, slot]

theorem slot_outside {list : SlotinfoList α} {i : Nat} (outside : total list ≤ i)
    : slot list i = none := by
  rw [slot, List.getElem?_eq_none outside]
  rfl

/-- Two lists with the same first array agree when the rest does. -/
theorem slot_cons_congr {next next' : SlotinfoList α} {k : Nat} {m : Option α} (outside : slots.length ≤ k)
    (rest : ∀ i, slot next' i = if i = k - slots.length then m else slot next i) (i : Nat)
    : slot (slots :: next') i = if i = k then m else slot (slots :: next) i := by
  by_cases inside : i < slots.length
  · rw [if_neg (by omega), slot_left inside, slot_left inside]
  · have outsideI := Nat.le_of_not_lt inside
    rw [slot_right outsideI, slot_right outsideI, rest]
    by_cases same : i = k
    · rw [if_pos same, if_pos (by omega)]
    · rw [if_neg same, if_neg (by omega)]

/-- Setting an entry of the first array. -/
theorem slot_set {k : Nat} (inside : k < slots.length) (m : Option α) (next : SlotinfoList α) (i : Nat)
    : slot (slots.set k m :: next) i = if i = k then m else slot (slots :: next) i := by
  by_cases insideI : i < slots.length
  · rw [slot_left (by simpa using insideI), slot_left insideI, List.getElem?_set]
    by_cases same : i = k
    · rw [if_pos same.symm, if_pos same, if_pos inside]
      rfl
    · rw [if_neg (Ne.symm same), if_neg same]
  · have outside := Nat.le_of_not_lt insideI
    rw [slot_right (by simpa using outside), slot_right outside, if_neg (by omega), List.length_set]

end Nglibc.TlsModid
