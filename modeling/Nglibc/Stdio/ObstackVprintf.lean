import Nglibc.Malloc.ObstackObjects
import Nglibc.Stdio.SprintfChk
import Nglibc.Stdio.VsnprintfText

/-! `__obstack_vprintf_internal` formats into an array of 1024 bytes and grows the object by the length that
`vsnprintf` returned, whatever is in the array.
-/

namespace Nglibc.Stdio

open Malloc Memory

variable {F : Type} {env : Env F} {fmt : List UInt8} {ap : List (Va F)} {h : Obstack} {live : LiveObjects}
  {chunkfun : Nat → Nat}

/-- `obstack_grow` from a memory, where the length is an `int` that `memcpy` takes as a `size_t`. A
negative length asks for no room.
-/
def obstackGrow (h : Obstack) (src : Memory UInt8) (len : Int) (chunkfun : Nat → Nat) : Obstack :=
  let h := if h.nextFree + len > h.chunkLimit then h.newchunk len.toNat chunkfun else h
  { h with
    memory := h.memory.store h.nextFree (src.slice 0 (toSizeT len))
    nextFree := (h.nextFree + len).toNat }

/-- The size of the array `buf`. -/
def bufSize : Nat := 1024

/-- `__obstack_vprintf_internal`, where `garbage` is what the array and the memory behind it held. -/
def obstackVprintf (env : Env F) (fmt : List UInt8) (ap : List (Va F)) (chunkfun : Nat → Nat)
    (garbage : Memory UInt8) (h : Obstack)
    : Option (Int × Obstack) :=
  (vsnprintf env garbage 0 bufSize fmt ap).map fun (len, buf) => (len, obstackGrow h buf len chunkfun)

/-- The output of a format, whose length is below `INT_MAX`, or a formatting error. -/
inductive Formats (env : Env F) (fmt : List UInt8) (ap : List (Va F)) : Option (List UInt8) → Prop where
  | output {ret : Int} {text : List UInt8} (run : formatted env fmt ap = some (ret, text))
      (success : 0 ≤ ret) (below : (text.length : Int) < intMax)
      : Formats env fmt ap (some text)
  | error {ret : Int} {text : List UInt8} (run : formatted env fmt ap = some (ret, text))
      (negative : ret < 0)
      : Formats env fmt ap none

def object (h : Obstack) : List UInt8 := h.memory.slice h.objectBase (h.nextFree - h.objectBase)

/-- `obstack_object_size` before its conversion. -/
def objectSize (h : Obstack) : Int := (h.nextFree : Int) - h.objectBase

/-- A call that appends the text and returns its length, or leaves the object as it is and returns a
negative value.
-/
def AppendsOutput (h : Obstack) (live : LiveObjects) : Option (List UInt8) → Int × Obstack → Prop
  | some text, (ret, h') =>
    ret = text.length ∧ object h' = object h ++ text ∧ h'.Sound (live.grow text)
  | none, (ret, h') => ret < 0 ∧ object h' = object h ∧ objectSize h' = objectSize h

theorem object_growing (holds : h.Holds live) : object h = live.growing := by
  have width : h.nextFree - h.objectBase = live.growing.length := by
    have top := holds.nextFree_eq
    omega
  rw [object, width]
  exact holds.growing

/-- A length that is not negative grows the object by that many bytes of the array. -/
theorem obstackGrow_natCast (h : Obstack) (src : Memory UInt8) {len : Nat} (small : len < 2 ^ 64)
    (chunkfun : Nat → Nat)
    : obstackGrow h src len chunkfun = h.grow (src.slice 0 len) chunkfun := by
  have room : ((h.nextFree : Int) + len > h.chunkLimit) = (h.nextFree + len > h.chunkLimit) := by
    apply propext
    omega
  have next (n : Nat) : ((n : Int) + len).toNat = n + len := by omega
  simp only [obstackGrow, Obstack.grow, Obstack.makeRoom, toSizeT_natCast small, length_slice, room,
    Int.toNat_natCast, next]

variable {text : List UInt8}

theorem obstackVprintf_output (holds : h.Holds live) (fresh : AnswersFresh h chunkfun)
    (run : formatted env fmt ap = some ((text.length : Int), text)) (below : (text.length : Int) < intMax)
    (garbage : Memory UInt8)
    : ∃ h', obstackVprintf env fmt ap chunkfun garbage h = some ((text.length : Int), h')
      ∧ h'.Holds (live.grow ((if text.length < bufSize then
            (garbage.store 0 (text.take (bufSize - 1))).store (0 + text.length) [0]
          else garbage.store 0 (text.take (bufSize - 1))).slice 0 text.length)) := by
  have bound : intMax = 2147483647 := rfl
  have called := vsnprintf_formatted (n := bufSize) (by decide) (Int.le_of_lt below) run garbage 0
  refine ⟨_, ?_, (grow_holds holds fresh _).1⟩
  rw [obstackVprintf, called, Option.map_some, ← obstackGrow_natCast _ _ (by omega)]

theorem array_fits (fits : text.length < bufSize) (garbage : Memory UInt8)
    : ((garbage.store 0 (text.take (bufSize - 1))).store (0 + text.length) [0]).slice 0 text.length
      = text := by
  rw [List.take_of_length_le (by omega), slice_store_disjoint (.inl le_rfl), slice_store_self]

theorem array_last (long : bufSize ≤ text.length) (b : UInt8)
    : (((filled b).store 0 (text.take (bufSize - 1))).slice 0 text.length)[bufSize - 1]? = some b := by
  have size : bufSize = 1024 := rfl
  have inside : bufSize - 1
      < (((filled b).store 0 (text.take (bufSize - 1))).slice 0 text.length).length := by
    rw [length_slice]
    omega
  rw [List.getElem?_eq_getElem inside, getElem_slice inside, store_outside]
  · rfl
  · rw [List.length_take]
    omega

theorem obstackGrow_negative (holds : h.Holds live) (src : Memory UInt8) {len : Int}
    (negative : len < 0)
    : objectSize (obstackGrow h src len chunkfun) < objectSize h := by
  obtain ⟨c, chunks, -, -, base⟩ := holds.current
  have head := start_lt_first h.alignmentMask c
  have header : headerSize = 16 := rfl
  have top := holds.nextFree_eq
  have limit := holds.nextFree_le
  have room : ¬ (h.nextFree : Int) + len > h.chunkLimit := by omega
  simp only [obstackGrow, room, if_false, objectSize]
  omega

theorem obstackVprintf_appends (holds : h.Holds live) (fresh : AnswersFresh h chunkfun)
    (run : formatted env fmt ap = some ((text.length : Int), text)) (below : (text.length : Int) < intMax)
    : (∀ garbage, ∃ r, obstackVprintf env fmt ap chunkfun garbage h = some r
        ∧ AppendsOutput h live (some text) r)
      ↔ text.length < bufSize := by
  constructor
  · intro appends
    by_contra long
    have stored (b : UInt8)
        : ((filled b).store 0 (text.take (bufSize - 1))).slice 0 text.length = text := by
      obtain ⟨r, called, -, grown, -⟩ := appends (filled b)
      obtain ⟨h', called', holds'⟩ := obstackVprintf_output holds fresh run below (filled b)
      rw [called, Option.some.injEq] at called'
      subst called'
      rw [if_neg long] at holds'
      rw [object_growing holds', object_growing holds] at grown
      exact List.append_cancel_left grown
    have first := array_last (Nat.le_of_not_lt long) 1
    have second := array_last (Nat.le_of_not_lt long) 2
    rw [stored] at first second
    exact absurd (Option.some.inj (first.symm.trans second)) (by decide)
  · intro fits garbage
    obtain ⟨h', called, holds'⟩ := obstackVprintf_output holds fresh run below garbage
    rw [if_pos fits, array_fits fits] at holds'
    refine ⟨_, called, rfl, ?_, holds'.sound⟩
    rw [object_growing holds', object_growing holds]
    rfl

theorem obstackVprintf_error {ret : Int} (holds : h.Holds live)
    (run : formatted env fmt ap = some (ret, text)) (negative : ret < 0) (garbage : Memory UInt8)
    : ¬ ∃ r, obstackVprintf env fmt ap chunkfun garbage h = some r ∧ AppendsOutput h live none r := by
  rintro ⟨r, called, -, -, same⟩
  have small : (bufSize : Int) ≤ intMax := by decide
  rw [obstackVprintf, vsnprintf_eq env fmt ap garbage 0 small, run, Option.map_some, Option.map_some,
    Option.some.injEq] at called
  subst called
  exact absurd same (Int.ne_of_lt (obstackGrow_negative holds _ negative))

theorem obstackVprintf_ret {ret : Int} (run : formatted env fmt ap = some (ret, text))
    (garbage : Memory UInt8)
    : ∃ h', obstackVprintf env fmt ap chunkfun garbage h = some (ret, h') := by
  have small : (bufSize : Int) ≤ intMax := by decide
  rw [obstackVprintf, vsnprintf_eq env fmt ap garbage 0 small, run]
  exact ⟨_, rfl⟩

/-- The output is appended, nothing else is read and its length is returned, or an error leaves the object
as it is, if and only if there is no formatting error, no padding is lost and the output is shorter than the
array.
-/
theorem obstackVprintf_iff (counts : env.Counts) (holds : h.Holds live) (fresh : AnswersFresh h chunkfun)
    {outcome : Option (List UInt8)} (formats : Formats env fmt ap outcome)
    : (∀ garbage, ∃ r, obstackVprintf env fmt ap chunkfun garbage h = some r
        ∧ AppendsOutput h live outcome r)
      ↔ ∃ text, outcome = some text ∧ text.length < bufSize
        ∧ (conversions fmt ap).any losesPadding = false := by
  cases formats with
  | @output ret text run success below =>
    rw [← (formatted_counts counts run success).2]
    constructor
    · intro appends
      obtain ⟨r, called, same, -⟩ := appends (filled 0)
      obtain ⟨h', called'⟩ := obstackVprintf_ret run (filled 0)
      obtain rfl := Option.some.inj (called'.symm.trans called)
      obtain rfl : ret = text.length := same
      exact ⟨text, rfl, (obstackVprintf_appends holds fresh run below).mp appends, rfl⟩
    · rintro ⟨text, ⟨⟩, fits, rfl⟩
      exact (obstackVprintf_appends holds fresh run below).mpr fits
  | error run negative =>
    refine iff_of_false (fun appends => ?_) fun ⟨text, same, _⟩ => nomatch same
    exact obstackVprintf_error holds run negative (filled 0) (appends (filled 0))

def freshObstack : Obstack := Obstack.begin 64 16 (fun _ => 4096) fun _ => 0

theorem freshObstack_holds : freshObstack.Holds { objects := [], growing := [] } :=
  begin_holds 64 16 (fun _ => 4096) (fun _ => 0) ⟨4, rfl⟩ (by decide)

theorem freshObstack_fresh : AnswersFresh freshObstack fun _ => 8192 := by
  intro size
  exact ⟨show 16 ∣ 8192 by decide, List.forall_mem_singleton.mpr (.inr (by decide : 4096 + 64 ≤ 8192))⟩

/-- A string of five bytes is appended. -/
theorem obstackVprintf_iff_heyho
    : ∃ r, obstackVprintf plainEnv (itemBytes stringItems) [.ptr ⟨8, .bytes heyho, by decide⟩]
        (fun _ => 8192) (filled 0) freshObstack = some r
      ∧ AppendsOutput freshObstack { objects := [], growing := [] } (some heyho) r := by
  have run : formatted plainEnv (itemBytes stringItems) [.ptr ⟨8, .bytes heyho, by decide⟩]
      = some (5, heyho) := by
    decide +kernel
  have formats := Formats.output run (by decide) (by decide)
  exact (obstackVprintf_iff (fun _ _ _ _ _ _ _ => rfl) freshObstack_holds freshObstack_fresh formats).mpr
    ⟨heyho, rfl, by decide, by decide +kernel⟩ (filled 0)

/-- `%1024d` -/
def wideNumber : List UInt8 := ['%', '1', '0', '2', '4', 'd'].map Char.toUInt8

/-- `%lc` -/
def wideChar : List UInt8 := ['%', 'l', 'c'].map Char.toUInt8

/-- A number in 1024 places has no room for its last digit, and an invalid wide character shrinks the
object.
-/
theorem obstackVprintf_garbles
    : (¬ ∀ garbage, ∃ r, obstackVprintf plainEnv wideNumber [.int 7] (fun _ => 8192) garbage freshObstack
          = some r
        ∧ AppendsOutput freshObstack { objects := [], growing := [] }
          (some (List.replicate 1023 32 ++ [55])) r)
      ∧ ¬ ∃ r, obstackVprintf plainEnv wideChar [.int 0x110000] (fun _ => 8192) (filled 0) freshObstack
          = some r
        ∧ AppendsOutput freshObstack { objects := [], growing := [] } none r := by
  constructor
  · have run : formatted plainEnv wideNumber [.int 7]
        = some (((List.replicate 1023 32 ++ [55] : List UInt8).length : Int), List.replicate 1023 32 ++ [55]) := by
      decide +kernel
    have length : (List.replicate 1023 32 ++ [55] : List UInt8).length = 1024 := by
      rw [List.length_append, List.length_replicate]
      rfl
    intro appends
    have short := (obstackVprintf_appends freshObstack_holds freshObstack_fresh run
      (by rw [length]; decide)).mp appends
    rw [length] at short
    exact absurd short (by decide)
  · have run : formatted plainEnv wideChar [.int 0x110000] = some (-1, []) := by decide +kernel
    exact obstackVprintf_error freshObstack_holds run (by decide) (filled 0)

end Nglibc.Stdio
