import Mathlib.Data.List.Basic

/-! Traces of a program that builds one block of memory at a time and hands the finished ones over. -/

namespace Nglibc

/-- What a program does with its blocks. A reallocation gives the old block up. -/
inductive BlockEvent (α : Type) where
  | malloc (block size : Nat)
  | realloc (old block size : Nat)
  | store (block offset : Nat) (cells : List α)
  | handOver (block : Nat)
  | count
  | free (block : Nat)

/-- What the program holds: no block, one that it builds, or one that it has just handed over. -/
inductive Custody where
  | nothing
  | building (block size : Nat)
  | handedOver (block size : Nat)
  deriving DecidableEq

namespace Custody

variable {α : Type}

/-- The custody behind an event. An event out of order has none: a store outside the block that was
returned last, a block that is lost, given back twice or after it was handed over, and a count of anything
but a block handed over.
-/
def next : Custody → BlockEvent α → Option Custody
  | .nothing, .malloc block size => some (.building block size)
  | .building held _, .realloc old block size => if old = held then some (.building block size) else none
  | .building held size, .store block offset cells =>
    if block = held ∧ offset + cells.length ≤ size then some (.building held size) else none
  | .building held size, .handOver block => if block = held then some (.handedOver held size) else none
  | .building held _, .free block => if block = held then some .nothing else none
  | .handedOver held size, .store block offset cells =>
    if block = held ∧ offset + cells.length ≤ size then some (.handedOver held size) else none
  | .handedOver _ _, .count => some .nothing
  | _, _ => none

def after (held : Custody) (events : List (BlockEvent α)) : Option Custody :=
  events.foldlM next held

variable {held held' : Custody} {events more : List (BlockEvent α)} {event : BlockEvent α}

theorem after_singleton : held.after [event] = held.next event := by
  rw [after, List.foldlM_cons]
  cases held.next event <;> rfl

theorem after_append : held.after (events ++ more) = (held.after events).bind fun h => h.after more :=
  List.foldlM_append

/-- A trace that goes on. -/
theorem after_append_some (before : held.after events = some held')
    : held.after (events ++ more) = held'.after more := by
  rw [after_append, before, Option.bind_some]

theorem after_snoc (before : held.after events = some held')
    : held.after (events ++ [event]) = held'.next event :=
  (after_append_some before).trans after_singleton

/-- A trace out of order stays so. -/
theorem after_append_none (before : held.after events = none) : held.after (events ++ more) = none := by
  rw [after_append, before, Option.bind_none]

theorem after_prefix_none (part : events <+: more) (before : held.after events = none)
    : held.after more = none := by
  obtain ⟨rest, rfl⟩ := part
  exact after_append_none before

theorem next_store {block size offset : Nat} {cells : List α} (inside : offset + cells.length ≤ size)
    : (building block size).next (.store block offset cells) = some (building block size) :=
  if_pos ⟨rfl, inside⟩

theorem next_store_none {block size offset : Nat} {cells : List α}
    (outside : size < offset + cells.length)
    : (building block size).next (.store block offset cells) = none :=
  if_neg fun both => absurd both.2 (Nat.not_le_of_lt outside)

end Custody

end Nglibc
