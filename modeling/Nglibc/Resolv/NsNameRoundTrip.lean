import Nglibc.Resolv.NsNamePton

/-! Names that are appended to a message by `___ns_name_pack` and `___ns_name_compress` are read
back by `___ns_name_unpack`, whatever the calls before and after them were.
-/

namespace Nglibc.Resolv

open Memory List

variable {src mem mem' : Memory UInt8} {base fuel : Nat} {labels : List Label}

/-! The list of pointers -/

/-- The array `dnptrs` with the pointers `saved` behind the one to the message. -/
def pointerArray (msg : Nat) (saved : List Nat) (rest : List (Option Nat)) : List (Option Nat) :=
  some msg :: (saved.map some ++ none :: rest)

theorem endOfList_saved (saved : List Nat) (rest : List (Option Nat))
    : endOfList (saved.map some ++ none :: rest) = some saved.length := by
  induction saved with
  | nil => rfl
  | cons p saved ih => simp [endOfList, ih]

theorem searched_pointers (msg : Nat) (saved extra : List Nat) (rest : List (Option Nat))
    : ((pointerArray msg (saved ++ extra) rest).take (saved.length + 1)).drop 1
      = saved.map some := by
  simp [pointerArray, map_append, append_assoc]

theorem set_pointer (msg p : Nat) (saved : List Nat) (rest : List (Option Nat)) (c : Option Nat)
    : ((pointerArray msg saved (c :: rest)).set (saved.length + 1) (some p)).set
        (saved.length + 1 + 1) none
      = pointerArray msg (saved ++ [p]) rest := by
  simp [pointerArray]

/-- The pointers behind `lpp` are given up. -/
theorem set_null (msg : Nat) (saved extra : List Nat) (rest : List (Option Nat))
    : ∃ rest', (pointerArray msg (saved ++ extra) rest).set (saved.length + 1) none
      = pointerArray msg saved rest' := by
  cases extra with
  | nil => exact ⟨rest, by simp [pointerArray]⟩
  | cons p extra => exact ⟨extra.map some ++ none :: rest, by simp [pointerArray]⟩

/-! ns_name_pack -/

/-- The first loop accepts valid names. -/
theorem isLegal_name {srcp l : Nat} (name : HoldsName src srcp labels)
    (short : l + (wire labels).length ≤ maxcdname) (enough : labels.length < fuel)
    : isLegal src fuel srcp l = some true := by
  induction labels generalizing srcp l fuel with
  | nil =>
    obtain _ | fuel := fuel
    · omega
    · have zero : (src srcp).toNat = 0 := toNat_eq_zero.mpr name
      rw [wire_nil, length_singleton] at short
      simp only [isLegal, zero]
      rw [if_neg (by omega), if_neg (by omega), if_neg (by omega)]
  | cons label rest ih =>
    obtain _ | fuel := fuel
    · omega
    · obtain ⟨first, _, tail⟩ := name
      have range := label.2
      rw [wire_cons, length_append, length_label_wire] at short
      rw [length_cons] at enough
      simp only [isLegal, first]
      rw [if_neg (by omega), if_neg (by omega), if_pos (by omega), Nat.add_comm label.1.length,
        ← Nat.add_assoc]
      exact ih tail (by omega) (by omega)

namespace PackCall

variable {c : PackCall} {saved extra : List Nat} {p p' : Packing}

/-- The array `dnptrs` lists the pointers of the earlier calls and those of this one. -/
structure Lists (c : PackCall) (base : Nat) (saved extra : List Nat)
    (dnptrs : List (Option Nat)) : Prop where
  array : ∃ rest, dnptrs = pointerArray base (saved ++ extra) rest
  bounded : ∀ k, c.lastdnptr = some k → k ≤ dnptrs.length

/-- A call that searches the pointers `saved`, unless there is no message to search. -/
structure Copying (c : PackCall) (base : Nat) (saved extra : List Nat) (p : Packing) : Prop where
  msg : c.msg = none ∨ c.msg = some base
  lpp : c.msg = some base → c.lpp = saved.length + 1
  cpp : c.msg = some base → p.cpp = (saved ++ extra).length + 1
  lists : c.msg = some base → c.Lists base saved extra p.dnptrs

/-- What a call makes of the rest of a name: a failed one drops the pointers it saved, and one
that succeeds stores a name with the same labels.
-/
structure Outcome (c : PackCall) (base : Nat) (saved extra : List Nat) (labels : List Label)
    (p : Packing) (result : Except Errno Nat) (p' : Packing) : Prop where
  frame : ∀ x < p.dstp, p'.mem x = p.mem x
  unlisted : c.msg = none → p'.dnptrs = p.dnptrs
  failed : ∀ e, result = .error e → c.msg = some base → c.Lists base saved [] p'.dnptrs
  stored : ∀ n, result = .ok n → ∃ held more,
    SameName held labels ∧ Stored p'.mem base c.dst p.dstp held (c.dst + n)
    ∧ (c.msg = some base → c.Lists base saved (extra ++ more) p'.dnptrs)
    ∧ ∀ q ∈ more, Saved p'.mem base (c.dst + n) q

theorem cleanup_outcome (copying : c.Copying base saved extra p)
    : c.Outcome base saved extra labels p (c.cleanup p).1 (c.cleanup p).2 := by
  refine ⟨?_, ?_, ?_, nofun⟩
  · intro x _
    unfold cleanup
    split <;> rfl
  · intro none_
    rw [cleanup, none_]
    rfl
  · intro e _ some_
    obtain ⟨⟨rest, array⟩, bounded⟩ := copying.lists some_
    obtain ⟨rest', dropped⟩ := set_null base saved extra rest
    have set_ : (c.cleanup p).2.dnptrs = p.dnptrs.set c.lpp none := by
      rw [cleanup, some_]
      rfl
    refine ⟨⟨rest', ?_⟩, ?_⟩
    · rw [set_, array, copying.lpp some_, dropped, append_nil]
    · rw [set_, length_set]
      exact bounded

/-- A saved pointer is the address of the rest of the name. -/
theorem save_copying (copying : c.Copying base saved extra p) (some_ : c.msg = some base)
    : (c.save base p).mem = p.mem ∧ (c.save base p).dstp = p.dstp
      ∧ ∃ more, c.Copying base saved (extra ++ more) (c.save base p) ∧ ∀ q ∈ more, q = p.dstp := by
  have unchanged : ∃ more, c.Copying base saved (extra ++ more) p ∧ ∀ q ∈ more, q = p.dstp :=
    ⟨[], by rwa [append_nil], nofun⟩
  unfold save
  cases last : c.lastdnptr with
  | none => exact ⟨rfl, rfl, unchanged⟩
  | some k =>
    simp only
    split
    · rename_i room
      refine ⟨rfl, rfl, [p.dstp], ?_, fun q member => mem_singleton.mp member⟩
      obtain ⟨⟨rest, array⟩, bounded⟩ := copying.lists some_
      have cpp := copying.cpp some_
      have size := bounded k last
      obtain _ | ⟨next, rest⟩ := rest
      · rw [array] at size
        simp only [pointerArray, length_cons, length_append, length_map,
          length_nil] at size cpp
        omega
      · refine ⟨copying.msg, copying.lpp, ?_, ?_⟩
        · intro _
          simp only [cpp, length_append, length_singleton]
          omega
        · intro _
          refine ⟨⟨rest, ?_⟩, ?_⟩
          · simp only [cpp]
            rw [array, set_pointer, append_assoc]
          · simp only [length_set]
            exact bounded
    · exact ⟨rfl, rfl, unchanged⟩

private theorem pointer_stored {t : Nat} (suffix : Suffix p.mem base c.dst t labels)
    (behind : c.dst ≤ p.dstp)
    : ∃ held, SameName held labels
      ∧ Stored (p.mem.store p.dstp [UInt8.ofNat (t >>> 8 ||| nsCmprsflgs), UInt8.ofNat (t % 256)])
          base c.dst p.dstp held (p.dstp + 2) := by
  obtain ⟨small, s, l, rest, stop, stored, first, start, inside, same⟩ := suffix
  have bounds := stored.bounds
  have page : t / 256 < 64 := by omega
  have outside : ∀ x < stop,
      p.mem.store p.dstp [UInt8.ofNat (t >>> 8 ||| nsCmprsflgs), UInt8.ofNat (t % 256)] x
        = p.mem x :=
    fun x below => store_outside (.inl (by omega))
  refine ⟨l :: rest, same, .pointer behind ?_ ?_ small ?_ (stored.congr outside) start inside⟩
  · simp only [store, le_refl, if_true, Nat.sub_self, getElem?_cons_zero, Option.getD_some]
    rw [Nat.shiftRight_eq_div_pow, or_pointer _ page, UInt8.toNat_ofNat']
    omega
  · rw [store_cons, store_outside (.inr (by simp)), store_singleton, if_pos rfl,
      UInt8.toNat_ofNat']
    omega
  · rw [outside _ bounds.2, first]

/-- The search for the rest of a name ends the call with a compression pointer, or leaves the
message as it is.
-/
theorem putPointer_outcome {srcp : Nat} (copying : c.Copying base saved extra p)
    (listed : ∀ q ∈ saved, Saved p.mem base c.dst q) (name : HoldsName c.src srcp labels)
    (nonempty : 0 < labels.length) (behind : c.dst ≤ p.dstp)
    (enough : 2 * labels.length < fuel) (turns : 256 ≤ fuel)
    : ∃ outcome, c.putPointer fuel srcp p = some outcome
      ∧ (∀ done, outcome = .inl done → c.Outcome base saved extra labels p done.1 done.2)
      ∧ ∀ p', outcome = .inr p' → p'.mem = p.mem ∧ p'.dstp = p.dstp
        ∧ (c.msg = none → p'.dnptrs = p.dnptrs)
        ∧ ∃ more, c.Copying base saved (extra ++ more) p' ∧ ∀ q ∈ more, q = p.dstp := by
  rcases copying.msg with none_ | some_
  · refine ⟨.inr p, by rw [putPointer, none_], nofun, ?_⟩
    intro p' same
    cases same
    exact ⟨rfl, rfl, fun _ => rfl, [], by rwa [append_nil], nofun⟩
  · obtain ⟨⟨rest, array⟩, bounded⟩ := copying.lists some_
    obtain ⟨result, find, found⟩ := dnFind_stored listed name nonempty enough turns
    have saves : ∀ p', (Sum.inr (c.save base p) : (Except Errno Nat × Packing) ⊕ Packing) = .inr p'
        → p'.mem = p.mem ∧ p'.dstp = p.dstp ∧ (c.msg = none → p'.dnptrs = p.dnptrs)
          ∧ ∃ more, c.Copying base saved (extra ++ more) p' ∧ ∀ q ∈ more, q = p.dstp := by
      intro p' same
      cases same
      obtain ⟨mem, dstp, more⟩ := save_copying copying some_
      refine ⟨mem, dstp, fun none_ => ?_, more⟩
      rw [some_] at none_
      cases none_
    have search : dnFind c.src p.mem base srcp fuel ((p.dnptrs.take c.lpp).drop 1) = some result := by
      rw [array, copying.lpp some_, searched_pointers, find]
    cases result with
    | error e =>
      refine ⟨.inr (c.save base p), ?_, nofun, saves⟩
      simp only [putPointer, some_, search]
    | ok l =>
      obtain ⟨t, rfl, suffix⟩ := found l rfl
      by_cases room : c.room p ≤ 1
      · refine ⟨.inl (c.cleanup p), ?_, ?_, nofun⟩
        · simp only [putPointer, some_, search]
          rw [if_pos (Int.natCast_nonneg t), if_pos room]
        · intro done same
          cases same
          exact cleanup_outcome copying
      · let pointer := [UInt8.ofNat (t >>> 8 ||| nsCmprsflgs), UInt8.ofNat (t % 256)]
        refine ⟨.inl (.ok (p.dstp + 2 - c.dst),
          { p with mem := p.mem.store p.dstp pointer, dstp := p.dstp + 2 }), ?_, ?_, nofun⟩
        · simp only [putPointer, some_, search, Int.toNat_natCast]
          rw [if_pos (Int.natCast_nonneg t), if_neg room]
        · intro done same
          cases same
          obtain ⟨held, equal, stored⟩ := pointer_stored suffix behind
          refine ⟨fun x below => store_outside (.inl below), fun _ => rfl, nofun, ?_⟩
          intro n result
          cases result
          rw [Nat.add_sub_cancel' (by omega)]
          refine ⟨held, [], equal, stored, ?_, nofun⟩
          rw [append_nil]
          exact copying.lists

private theorem Outcome.of_saved {more : List Nat} {p₁ : Packing} {result : Except Errno Nat}
    (outcome : c.Outcome base saved (extra ++ more) labels p₁ result p')
    (mem : p₁.mem = p.mem) (dstp : p₁.dstp = p.dstp) (unlisted : c.msg = none → p₁.dnptrs = p.dnptrs)
    (own : ∀ q ∈ more, q = p.dstp) (start : base ≤ c.dst) (short : labels.length < 256)
    : c.Outcome base saved extra labels p result p' := by
  refine ⟨?_, fun none_ => (outcome.unlisted none_).trans (unlisted none_), outcome.failed, ?_⟩
  · rw [← mem, ← dstp]
    exact outcome.frame
  · intro n done
    obtain ⟨held, later, same, stored, lists, ends⟩ := outcome.stored n done
    rw [dstp] at stored
    refine ⟨held, more ++ later, same, stored, ?_, ?_⟩
    · rw [← append_assoc]
      exact lists
    · intro q member
      rcases mem_append.mp member with this_ | later_
      · rw [own q this_]
        exact ⟨c.dst, held, c.dst + n, stored, start, le_rfl, same.length_eq ▸ short⟩
      · exact ends q later_

private theorem Outcome.of_copied {l : Label} {srcp : Nat} {result : Except Errno Nat}
    (outcome : c.Outcome base saved extra labels (c.copyLabel srcp l.1.length p) result p')
    (bytes : c.src.slice srcp (l.1.length + 1) = l.wire) (behind : c.dst ≤ p.dstp)
    : c.Outcome base saved extra (l :: labels) p result p' := by
  refine ⟨?_, outcome.unlisted, outcome.failed, ?_⟩
  · intro x below
    rw [outcome.frame x (by simp only [copyLabel]; omega)]
    exact store_outside (.inl below)
  · intro n done
    obtain ⟨held, more, same, stored, lists, ends⟩ := outcome.stored n done
    refine ⟨l :: held, more, .cons rfl same, stored.cons behind ?_, lists, ends⟩
    have copied : p'.mem.slice p.dstp (l.1.length + 1)
        = (c.copyLabel srcp l.1.length p).mem.slice p.dstp (l.1.length + 1) := by
      apply slice_congr
      intro x _ below
      exact outcome.frame x below
    have self := @slice_store_self _ p.mem p.dstp (c.src.slice srcp (l.1.length + 1))
    rw [length_slice] at self
    rw [copied, copyLabel, self, bytes]

/-- The second loop ends, and stores a name with the same labels if it succeeds. By induction on
the labels that are left.
-/
theorem copyLabels_outcome {srcp rounds : Nat} (copying : c.Copying base saved extra p)
    (listed : ∀ q ∈ saved, Saved p.mem base c.dst q) (name : HoldsName c.src srcp labels)
    (start : base ≤ c.dst) (behind : c.dst ≤ p.dstp) (short : 2 * labels.length < 256)
    (turns : labels.length < rounds) (enough : 256 ≤ fuel)
    : ∃ result p', c.copyLabels fuel rounds srcp p = some (result, p')
      ∧ c.Outcome base saved extra labels p result p' := by
  induction labels generalizing srcp p rounds extra with
  | nil =>
    obtain _ | rounds := rounds
    · omega
    · have zero : (c.src srcp).toNat = 0 := toNat_eq_zero.mpr name
      simp only [copyLabels, zero]
      rw [if_neg (by omega), if_neg (by omega)]
      split
      · exact ⟨_, _, rfl, cleanup_outcome copying⟩
      · rename_i room
        have left : ¬ c.room (c.copyLabel srcp 0 p) < 0 := by
          simp only [PackCall.room, copyLabel] at room ⊢
          push_cast
          omega
        rw [if_neg left]
        refine ⟨_, _, rfl, fun x below => store_outside (.inl below), fun _ => rfl, nofun, ?_⟩
        intro n done
        cases done
        have terminated : (c.copyLabel srcp 0 p).mem p.dstp = 0 := by
          have zero : c.src srcp = 0 := name
          have stored : p.mem.store p.dstp (c.src.slice srcp 1) p.dstp = 0 := by
            rw [slice_succ, slice_zero, zero, store_singleton, if_pos rfl]
          exact stored
        refine ⟨[], [], .nil, ?_, ?_, nofun⟩
        · have stop : c.dst + ((c.copyLabel srcp 0 p).dstp - c.dst) = p.dstp + 1 := by
            simp only [copyLabel]
            omega
          rw [stop]
          exact .root behind terminated
        · rw [append_nil]
          exact copying.lists
  | cons l rest ih =>
    obtain _ | rounds := rounds
    · omega
    · obtain ⟨outcome, put, done, more⟩ := putPointer_outcome copying listed name
        (Nat.succ_pos _) behind (by omega) enough
      obtain ⟨first, bytes, tail⟩ := name
      have range := l.2
      simp only [copyLabels, first]
      rw [if_pos (by omega), put]
      cases outcome with
      | inl ended => exact ⟨_, _, rfl, done ended rfl⟩
      | inr p₁ =>
        obtain ⟨mem, dstp, unlisted, saves, copying₁, own⟩ := more p₁ rfl
        rw [length_cons] at turns
        have after : ∀ {result p'}, c.Outcome base saved (extra ++ saves) (l :: rest) p₁ result p'
            → c.Outcome base saved extra (l :: rest) p result p' :=
          fun outcome => outcome.of_saved mem dstp unlisted own start (by omega)
        simp only
        rw [if_neg (by omega)]
        split
        · exact ⟨_, _, rfl, after (cleanup_outcome copying₁)⟩
        · rw [if_pos (by omega)]
          have copied : c.Copying base saved (extra ++ saves) (c.copyLabel srcp l.1.length p₁) :=
            ⟨copying₁.msg, copying₁.lpp, copying₁.cpp, copying₁.lists⟩
          have kept : ∀ q ∈ saved, Saved (c.copyLabel srcp l.1.length p₁).mem base c.dst q := by
            intro q member
            refine (listed q member).congr le_rfl fun x below => ?_
            rw [← mem]
            exact store_outside (.inl (by omega))
          rw [length_cons] at short
          have next : HoldsName c.src (srcp + (l.1.length + 1)) rest := by
            rwa [Nat.add_comm l.1.length, ← Nat.add_assoc]
          obtain ⟨result, p', run, outcome⟩ := ih copied kept next
            (by simp only [copyLabel]; omega) (by omega) (show rest.length < rounds by omega)
          exact ⟨result, p', run, after (outcome.of_copied (slice_label first bytes) (by omega))⟩

theorem run_outcome {dnptrs : List (Option Nat)}
    (copying : c.Copying base saved [] ⟨mem, c.dst, dnptrs, c.lpp, true⟩)
    (listed : ∀ q ∈ saved, Saved mem base c.dst q) (name : HoldsName c.src 0 labels)
    (short : (wire labels).length ≤ maxcdname) (start : base ≤ c.dst) (enough : 256 ≤ fuel)
    : ∃ result p', c.run fuel mem dnptrs = some (result, p')
      ∧ c.Outcome base saved [] labels ⟨mem, c.dst, dnptrs, c.lpp, true⟩ result p' := by
  have size := @length_wire_ge labels
  have limit : maxcdname = 255 := rfl
  obtain ⟨result, p', run, outcome⟩ := copyLabels_outcome copying listed name start
    (Nat.le_refl c.dst) (by omega) (show labels.length < fuel by omega) enough
  refine ⟨result, p', ?_, outcome⟩
  have legal := isLegal_name name (by omega : 0 + (wire labels).length ≤ maxcdname)
    (show labels.length < fuel by omega)
  simp only [PackCall.run, legal, run]

end PackCall

/-- The array `dnptrs` as the calls hand it over: `NULL`, without a message to search, or with
the pointers `saved`; the array then goes up to `lastdnptr` at least.
-/
inductive PointerList (base : Nat) (lastdnptr : Option Nat)
    : Option (List (Option Nat)) → List Nat → Prop where
  | null : PointerList base lastdnptr none []
  | noMessage (rest : List (Option Nat)) : PointerList base lastdnptr (some (none :: rest)) []
  | listed {saved : List Nat} {rest : List (Option Nat)}
    : (∀ k, lastdnptr = some k → k ≤ (pointerArray base saved rest).length)
      → PointerList base lastdnptr (some (pointerArray base saved rest)) saved

theorem PackCall.Lists.pointerList {c : PackCall} {saved extra : List Nat}
    {dnptrs : List (Option Nat)} (lists : c.Lists base saved extra dnptrs)
    : PointerList base c.lastdnptr (some dnptrs) (saved ++ extra) := by
  obtain ⟨⟨rest, array⟩, bounded⟩ := lists
  rw [array] at bounded ⊢
  exact .listed bounded

/-- What `___ns_name_pack` does with a valid name behind `dst` bytes of a message. -/
structure Appends (base dst : Nat) (lastdnptr : Option Nat) (saved : List Nat)
    (labels : List Label) (mem : Memory UInt8) (packed : Packed) : Prop where
  frame : ∀ x < dst, packed.mem x = mem x
  failed : ∀ e, packed.result = .error e → PointerList base lastdnptr packed.dnptrs saved
  stored : ∀ n, packed.result = .ok n → ∃ held more,
    SameName held labels ∧ Stored packed.mem base dst dst held (dst + n)
    ∧ PointerList base lastdnptr packed.dnptrs (saved ++ more)
    ∧ ∀ q ∈ more, Saved packed.mem base (dst + n) q

variable {lastdnptr : Option Nat} {saved : List Nat}

/-- Packing stores the name behind the message, or fails and keeps the list of pointers. -/
theorem nsNamePack_appends {dst : Nat} {dnptrs : Option (List (Option Nat))} (dstsiz : Int)
    (pointers : PointerList base lastdnptr dnptrs saved) (listed : ∀ q ∈ saved, Saved mem base dst q)
    (name : HoldsName src 0 labels) (short : (wire labels).length ≤ maxcdname) (start : base ≤ dst)
    (enough : 256 ≤ fuel)
    : ∃ packed, nsNamePack fuel src dst dstsiz dnptrs lastdnptr mem = some packed
      ∧ Appends base dst lastdnptr saved labels mem packed := by
  -- without a message nothing is saved
  have unlisted : ∀ array, ∃ result p',
      PackCall.run ⟨src, dst, dstsiz, none, 0, lastdnptr⟩ fuel mem array = some (result, p')
      ∧ PackCall.Outcome ⟨src, dst, dstsiz, none, 0, lastdnptr⟩ base [] [] labels
        ⟨mem, dst, array, 0, true⟩ result p' := fun array =>
    PackCall.run_outcome ⟨.inl rfl, nofun, nofun, nofun⟩ nofun name short start enough
  cases pointers with
  | null =>
    obtain ⟨result, p', run, outcome⟩ := unlisted []
    refine ⟨⟨result, p'.mem, none⟩, by rw [nsNamePack, run]; rfl, outcome.frame, fun _ _ => .null, ?_⟩
    intro n done
    obtain ⟨held, more, same, stored, _, ends⟩ := outcome.stored n done
    exact ⟨held, [], same, stored, .null, nofun⟩
  | noMessage rest =>
    obtain ⟨result, p', run, outcome⟩ := unlisted (none :: rest)
    have kept : p'.dnptrs = none :: rest := outcome.unlisted rfl
    refine ⟨⟨result, p'.mem, some p'.dnptrs⟩, by rw [nsNamePack, run]; rfl, outcome.frame, ?_, ?_⟩
    · intro e _
      rw [kept]
      exact .noMessage rest
    · intro n done
      obtain ⟨held, more, same, stored, _, ends⟩ := outcome.stored n done
      refine ⟨held, [], same, stored, ?_, nofun⟩
      rw [kept]
      exact .noMessage rest
  | @listed saved rest bounded =>
    have copying : PackCall.Copying ⟨src, dst, dstsiz, some base, saved.length + 1, lastdnptr⟩
        base saved [] ⟨mem, dst, pointerArray base saved rest, saved.length + 1, true⟩ := by
      refine ⟨.inr rfl, fun _ => rfl, fun _ => ?_, fun _ => ⟨⟨rest, ?_⟩, bounded⟩⟩
      · rw [append_nil]
      · rw [append_nil]
    obtain ⟨result, p', run, outcome⟩ := PackCall.run_outcome copying listed name short start enough
    refine ⟨⟨result, p'.mem, some p'.dnptrs⟩, ?_, outcome.frame, ?_, ?_⟩
    · rw [pointerArray] at run ⊢
      rw [nsNamePack, endOfList_saved]
      simp only [bind, Option.bind, run]
    · intro e failed
      have dropped := (outcome.failed e failed rfl).pointerList
      rwa [append_nil] at dropped
    · intro n done
      obtain ⟨held, more, same, stored, lists, ends⟩ := outcome.stored n done
      exact ⟨held, more, same, stored, (lists rfl).pointerList, ends⟩

/-! Sequences of calls -/

/-- A call that appends a name: `ns_name_pack` of the name at the address 0 of `src`, or
`ns_name_compress` of a text, with what its local array holds before.
-/
inductive NameCall where
  | pack (src : Memory UInt8) (dstsiz : Int)
  | compress (text : List UInt8) (tmp : Memory UInt8) (dstsiz : Nat)

def NameCall.source : NameCall → Option (Memory UInt8)
  | .pack src _ => some src
  | .compress text tmp _ =>
    match nsNamePton text tmp maxcdname with
    | .ok (_, name) => some name
    | .error _ => none

/-- A message of which the bytes before `stop` are written. -/
structure Message where
  mem : Memory UInt8
  stop : Nat
  dnptrs : Option (List (Option Nat))

def NameCall.packed (fuel : Nat) (lastdnptr : Option Nat) (m : Message) : NameCall → Option Packed
  | .pack src dstsiz => nsNamePack fuel src m.stop dstsiz m.dnptrs lastdnptr m.mem
  | .compress text tmp dstsiz =>
    nsNameCompress fuel text tmp m.stop dstsiz m.dnptrs lastdnptr m.mem

/-- A call of the sequence, where it appended its name, and its result. -/
structure Event where
  call : NameCall
  dst : Nat
  result : Except Errno Nat

/-- The message behind a call: a failed one appends nothing. -/
def Message.after (m : Message) (packed : Packed) : Message where
  mem := packed.mem
  stop := match packed.result with
    | .ok n => m.stop + n
    | .error _ => m.stop
  dnptrs := packed.dnptrs

def appendNames (fuel : Nat) (lastdnptr : Option Nat)
    : List NameCall → Message → Option (List Event × Message)
  | [], m => some ([], m)
  | call :: calls, m => do
    let packed ← call.packed fuel lastdnptr m
    let (events, final) ← appendNames fuel lastdnptr calls (m.after packed)
    some ({ call, dst := m.stop, result := packed.result } :: events, final)

/-- `ns_name_pack` is called with valid names; `ns_name_compress` makes its own. -/
def NameCall.Valid : NameCall → Prop
  | .pack src _ => ValidName src
  | .compress _ _ _ => True

def Message.Indexed (m : Message) (base : Nat) (lastdnptr : Option Nat) : Prop :=
  base ≤ m.stop ∧ ∃ saved, PointerList base lastdnptr m.dnptrs saved
    ∧ ∀ q ∈ saved, Saved m.mem base m.stop q

/-- A call that succeeded left a name with the labels of its source in the message. -/
def Event.Kept (e : Event) (base : Nat) (m : Message) : Prop :=
  ∀ n, e.result = .ok n → ∃ src labels held,
    e.call.source = some src ∧ HoldsName src 0 labels ∧ (wire labels).length ≤ maxcdname
    ∧ SameName held labels ∧ Stored m.mem base e.dst e.dst held (e.dst + n)
    ∧ base ≤ e.dst ∧ e.dst + n ≤ m.stop

theorem Event.Kept.later {e : Event} {m m' : Message} (kept : e.Kept base m)
    (same : ∀ x < m.stop, m'.mem x = m.mem x) (grows : m.stop ≤ m'.stop) : e.Kept base m' := by
  intro n done
  obtain ⟨src, labels, held, source, name, short, equal, stored, start, inside⟩ := kept n done
  exact ⟨src, labels, held, source, name, short, equal,
    stored.congr fun x below => same x (by omega), start, by omega⟩

variable {m : Message}

/-- A message that a call with a valid name leaves. -/
theorem Appends.indexed {packed : Packed}
    (appends : Appends base m.stop lastdnptr saved labels m.mem packed) (start : base ≤ m.stop)
    (listed : ∀ q ∈ saved, Saved m.mem base m.stop q)
    : (m.after packed).Indexed base lastdnptr ∧ m.stop ≤ (m.after packed).stop := by
  cases result : packed.result with
  | error e =>
    have stop : (m.after packed).stop = m.stop := by
      rw [Message.after, result]
    refine ⟨⟨by rw [stop]; exact start, saved, appends.failed e result, ?_⟩, by rw [stop]⟩
    intro q member
    rw [stop]
    exact (listed q member).congr le_rfl appends.frame
  | ok n =>
    have stop : (m.after packed).stop = m.stop + n := by
      rw [Message.after, result]
    obtain ⟨held, more, _, _, pointers, ends⟩ := appends.stored n result
    refine ⟨⟨by omega, saved ++ more, pointers, ?_⟩, by omega⟩
    intro q member
    rw [stop]
    rcases mem_append.mp member with old | new
    · exact (listed q old).congr (Nat.le_add_right _ n) appends.frame
    · exact ends q new

theorem Appends.step {packed : Packed} {call : NameCall}
    (appends : Appends base m.stop lastdnptr saved labels m.mem packed) (start : base ≤ m.stop)
    (listed : ∀ q ∈ saved, Saved m.mem base m.stop q) (source : call.source = some src)
    (name : HoldsName src 0 labels) (short : (wire labels).length ≤ maxcdname)
    : (m.after packed).Indexed base lastdnptr
      ∧ Event.Kept ⟨call, m.stop, packed.result⟩ base (m.after packed)
      ∧ (∀ x < m.stop, (m.after packed).mem x = m.mem x) ∧ m.stop ≤ (m.after packed).stop := by
  obtain ⟨indexed, grows⟩ := appends.indexed start listed
  refine ⟨indexed, ?_, appends.frame, grows⟩
  intro n result
  obtain ⟨held, more, same, stored, _, _⟩ := appends.stored n result
  have done : packed.result = .ok n := result
  exact ⟨src, labels, held, source, name, short, same, stored, start, by rw [Message.after, done]⟩

/-- One call keeps the message indexed and the names before it, and leaves its own. -/
theorem packed_step {call : NameCall} (indexed : m.Indexed base lastdnptr) (valid : call.Valid)
    (enough : 256 ≤ fuel)
    : ∃ packed, call.packed fuel lastdnptr m = some packed ∧ (m.after packed).Indexed base lastdnptr
      ∧ Event.Kept ⟨call, m.stop, packed.result⟩ base (m.after packed)
      ∧ (∀ x < m.stop, (m.after packed).mem x = m.mem x) ∧ m.stop ≤ (m.after packed).stop := by
  obtain ⟨start, saved, pointers, listed⟩ := indexed
  cases call with
  | pack src dstsiz =>
    obtain ⟨labels, name, short⟩ := valid
    obtain ⟨packed, run, appends⟩ :=
      nsNamePack_appends dstsiz pointers listed name short start enough
    exact ⟨packed, run, appends.step start listed rfl name short⟩
  | compress text tmp dstsiz =>
    simp only [NameCall.packed, nsNameCompress]
    cases text_ : nsNamePton text tmp maxcdname with
    | error e =>
      exact ⟨_, rfl, ⟨start, saved, pointers, listed⟩, nofun, fun _ _ => rfl, le_rfl⟩
    | ok r =>
      obtain ⟨labels, name, short⟩ := nsNamePton_name text_
      obtain ⟨packed, run, appends⟩ :=
        nsNamePack_appends (sizeToInt dstsiz) pointers listed name short start enough
      refine ⟨packed, run, appends.step start listed ?_ name short⟩
      rw [NameCall.source, text_]

private theorem appendNames_kept {calls : List NameCall} (indexed : m.Indexed base lastdnptr)
    (valid : ∀ call ∈ calls, call.Valid) (enough : 256 ≤ fuel)
    : ∃ events final, appendNames fuel lastdnptr calls m = some (events, final)
      ∧ events.map Event.call = calls ∧ (∀ e ∈ events, e.Kept base final)
      ∧ (∀ x < m.stop, final.mem x = m.mem x) ∧ m.stop ≤ final.stop := by
  induction calls generalizing m with
  | nil => exact ⟨[], m, rfl, rfl, nofun, fun _ _ => rfl, le_rfl⟩
  | cons call calls ih =>
    obtain ⟨packed, run, indexed', kept, same, grows⟩ :=
      packed_step indexed (valid call mem_cons_self) enough
    obtain ⟨events, final, rest, calls_, keptRest, sameRest, growsRest⟩ :=
      ih indexed' fun call member => valid call (mem_cons_of_mem _ member)
    refine ⟨⟨call, m.stop, packed.result⟩ :: events, final, ?_, ?_, ?_, ?_, by omega⟩
    · rw [appendNames, run]
      simp only [bind, Option.bind, rest]
    · rw [map_cons, calls_]
    · intro e member
      rcases mem_cons.mp member with rfl | member
      · exact kept.later sameRest growsRest
      · exact keptRest e member
    · intro x below
      rw [sameRest x (by omega), same x below]

/-- Every name that was appended is read back from the finished message: `___ns_name_unpack`
returns the number of bytes the call reported and the name, up to the case of its letters.
-/
theorem nsNameUnpack_appended {lastdnptr : Option Nat} {calls : List NameCall} {m : Message}
    (start : base ≤ m.stop) (fresh : PointerList base lastdnptr m.dnptrs [])
    (valid : ∀ call ∈ calls, call.Valid) (enough : 256 ≤ fuel)
    : ∃ events final, appendNames fuel lastdnptr calls m = some (events, final)
      ∧ events.map Event.call = calls
      ∧ ∀ e ∈ events, ∀ n, e.result = .ok n → ∃ src labels held,
        e.call.source = some src ∧ HoldsName src 0 labels ∧ SameName held labels
        ∧ nsNameUnpack fuel final.mem base final.stop e.dst maxcdname
          = some (.ok (n, wire held)) := by
  obtain ⟨events, final, run, calls_, kept, _, _⟩ :=
    appendNames_kept ⟨start, [], fresh, nofun⟩ valid enough
  refine ⟨events, final, run, calls_, ?_⟩
  intro e member n done
  obtain ⟨src, labels, held, source, name, short, same, stored, low, inside⟩ := kept e member n done
  refine ⟨src, labels, held, source, name, same, ?_⟩
  have size := @length_wire_ge held
  rw [← same.length_wire] at short
  have limit : maxcdname = 255 := rfl
  rw [nsNameUnpack_stored stored low inside short (by omega)]
  push_cast
  rw [add_sub_cancel_left]

/-- The name "a" and the text "A.", which becomes a compression pointer, behind a header of
12 bytes.
-/
theorem nsNameUnpack_appended_twoNames
    : ∃ events final, appendNames 256 (some 3)
          [.pack (Memory.store (fun _ => 0) 0 [1, 97, 0]) 8, .compress [65, 46] (fun _ => 0) 8]
          ⟨fun _ => 0, 12, some [some 0, none, none]⟩ = some (events, final)
        ∧ events.map Event.call
          = [.pack (Memory.store (fun _ => 0) 0 [1, 97, 0]) 8, .compress [65, 46] (fun _ => 0) 8]
        ∧ ∀ e ∈ events, ∀ n, e.result = .ok n → ∃ src labels held,
          e.call.source = some src ∧ HoldsName src 0 labels ∧ SameName held labels
          ∧ nsNameUnpack 256 final.mem 0 final.stop e.dst maxcdname
            = some (.ok (n, wire held)) := by
  refine nsNameUnpack_appended (Nat.zero_le 12) ?_ ?_ le_rfl
  · have array : PointerList 0 (some 3) (some (pointerArray 0 [] [none])) [] := .listed (by decide)
    exact array
  · intro call member
    rcases mem_cons.mp member with rfl | member
    · exact ⟨[⟨[97], by decide⟩], ⟨rfl, rfl, rfl⟩, by decide⟩
    · rw [mem_singleton.mp member]
      trivial

end Nglibc.Resolv
