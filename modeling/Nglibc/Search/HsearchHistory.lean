import Nglibc.Search.Hsearch

/-! Every sequence of `hsearch_r` calls on a table from `hcreate_r` behaves as a map with room
for `size` keys that keeps the entry of the first `ENTER`.
-/

namespace Nglibc.Search

open List

variable {D : Type}

/-- `isprime` is exact on odd numbers above 2 once no divisor below `div` is left. -/
theorem isprimeLoop_iff (number div : Nat) (low : 3 ≤ number) (start : 3 ≤ div)
    (sieved : ∀ d, 2 ≤ d → d < div → ¬ d ∣ number) (odd : number % 2 = 1) (step : div % 2 = 1)
    : isprimeLoop number div = true ↔ number.Prime := by
  fun_induction isprimeLoop number div with
  | case1 div le divides =>
    have dvd : div ∣ number := Nat.dvd_of_mod_eq_zero divides
    have lt : div < number := by
      have square : div * div ≤ number := (Nat.le_div_iff_mul_le (by omega)).mp le
      nlinarith
    simp only [Bool.false_eq_true, false_iff]
    intro prime
    rcases (Nat.dvd_prime prime).mp dvd with one | all <;> omega
  | case2 div le divides ih =>
    apply ih (by omega) ?_ (by omega)
    intro d two below dvd
    by_cases before : d < div
    · exact sieved d two before dvd
    · by_cases same : d = div
      · exact divides (Nat.mod_eq_zero_of_dvd (same ▸ dvd))
      · -- the even number between `div` and `div + 2` does not divide an odd one
        have even : 2 ∣ d := by omega
        have : 2 ∣ number := even.trans dvd
        omega
  | case3 div above =>
    simp only [true_iff]
    by_contra composite
    have square := Nat.minFac_sq_le_self (by omega) composite
    have factor := Nat.minFac_dvd number
    have two : 2 ≤ number.minFac := (Nat.minFac_prime (by omega)).two_le
    by_cases before : number.minFac < div
    · exact sieved _ two before factor
    · apply above
      rw [Nat.le_div_iff_mul_le (by omega)]
      nlinarith

theorem isprime_iff {number : Nat} (low : 3 ≤ number) (odd : number % 2 = 1)
    : isprime number = true ↔ number.Prime := by
  apply isprimeLoop_iff number 3 low le_rfl ?_ odd rfl
  intro d two below dvd
  obtain rfl : d = 2 := by omega
  omega

/-- What `__hcreate_r` guarantees of the size it chooses. -/
structure Sized (size : Nat) : Prop where
  prime : size.Prime
  low : 3 ≤ size
  high : size ≤ uintMax - 2

theorem nextPrime_sized {nel size : Nat} (low : 3 ≤ nel) (odd : nel % 2 = 1)
    (chosen : nextPrime nel = some size)
    : Sized size := by
  fun_induction nextPrime nel with
  | case1 nel above => exact nomatch chosen
  | case2 nel fits prime =>
    obtain rfl := Option.some.inj chosen
    exact { prime := (isprime_iff low odd).mp prime, low, high := by omega }
  | case3 nel fits composite ih => exact ih (by omega) (by omega) chosen

theorem or_one_odd (n : Nat) : (n ||| 1) % 2 = 1 := by
  have := Nat.or_mod_two_eq_one (a := n) (b := 1)
  simp [this]

private theorem hcreateR_created {allocated : Bool} {nel : Nat} {old : Option (HsearchData D)}
    {errno : Option Errno} {htab : HsearchData D}
    (created : hcreateR allocated nel old = (1, errno, some htab))
    : Sized htab.size ∧ htab.table = some (fun _ => .zero) ∧ htab.filled = 0 := by
  unfold hcreateR at created
  cases old with
  | none => simp at created
  | some old =>
    simp only at created
    split at created
    · simp at created
    · split at created
      · simp at created
      case h_2 size chosen =>
        split at created
        · obtain ⟨-, rfl⟩ := created
          refine ⟨nextPrime_sized ?_ (or_one_odd _) chosen, rfl, rfl⟩
          refine le_trans ?_ Nat.left_le_or
          split <;> omega
        · simp at created

theorem hash_ne_zero (key : CString) : hash key ≠ 0 := by
  unfold hash
  simp only
  split <;> omega

variable {size filled : Nat} {table : Nat → Slot D} {key : CString}

theorem step_bounds (sized : Sized size) (hval : Nat)
    : 1 ≤ 1 + hval % (size - 2) ∧ 1 + hval % (size - 2) < size := by
  have low := sized.low
  have := Nat.mod_lt hval (show 0 < size - 2 by omega)
  omega

/-- The slots in the order in which `__hsearch_r` visits them. -/
def order (sized : Sized size) : ProbeOrder CString Nat :=
  ProbeOrder.doubleHash size (fun key => hash key % size + 1) (fun key => 1 + hash key % (size - 2))
    (by
      intro key
      have := Nat.mod_lt (hash key) sized.prime.pos
      rw [Finset.mem_Icc]
      omega)
    (fun key => (step_bounds sized (hash key)).2.le)
    (by
      intro key
      have bounds := step_bounds sized (hash key)
      exact sized.prime.coprime_iff_not_dvd.mpr (Nat.not_dvd_of_pos_of_lt bounds.1 bounds.2))

section

variable (sized : Sized size)
include sized

@[simp] theorem order_slots : (order sized).slots = Finset.Icc 1 size := rfl

theorem card_order_slots : (order sized).slots.card = size := by
  rw [order_slots, Nat.card_Icc, Nat.add_sub_cancel]

/-- The 32-bit arithmetic of the loop does not leave the table. -/
theorem nextIdx_eq {hval2 idx : Nat} (step : hval2 < size)
    : nextIdx size hval2 idx = stepBack size hval2 idx := by
  have high := sized.high
  have : uintMax = 4294967295 := rfl
  unfold nextIdx stepBack u32
  split
  -- `size + idx` may wrap, the subtraction then wraps back
  case isTrue le => omega
  case isFalse gt => rfl

theorem order_visit_succ (key : CString) (n : Nat)
    : nextIdx size (1 + hash key % (size - 2)) ((order sized).visit key n)
      = (order sized).visit key (n + 1) := by
  rw [nextIdx_eq sized (step_bounds sized (hash key)).2]
  exact (Function.iterate_succ_apply' _ _ _).symm

/-- A probe is back at its first index after `size` steps and not before. -/
theorem order_visit_eq_first (key : CString) {n : Nat} (low : 0 < n) (le : n ≤ size)
    : (order sized).visit key n = (order sized).visit key 0 ↔ n = size := by
  have bounds := step_bounds sized (hash key)
  constructor
  · intro same
    by_contra less
    have coprime : size.Coprime (1 + hash key % (size - 2)) :=
      sized.prime.coprime_iff_not_dvd.mpr (Nat.not_dvd_of_pos_of_lt bounds.1 bounds.2)
    have inj := stepBack_iterate_injOn (i := hash key % size + 1) bounds.2.le coprime
    have zero := inj (by simp; omega) (by simp; omega) same
    omega
  · rintro rfl
    exact stepBack_iterate_round bounds.2.le ((order sized).inside key 0)

end

def contents (table : Nat → Slot D) (idx : Nat) : Option (Entry D) :=
  if (table idx).used = 0 then none else (table idx).entry

/-- Every entry is found along its probe path, its slot carries the hash of its key, and
`filled` counts the slots in use.
-/
structure Sound (sized : Sized size) (filled : Nat) (table : Nat → Slot D) : Prop where
  probed : Probed (order sized) Entry.key (contents table)
  hashed : ∀ idx e, contents table idx = some e → (table idx).used = hash e.key
  counted : filled = (occupied (order sized) (contents table)).card

variable {sized : Sized size} {history : List (Event D)} {event : Event D} {idx : Nat}

theorem contents_eq_none : contents table idx = none ↔ (table idx).used = 0 := by
  unfold contents
  split
  case isTrue free => simp [free]
  case isFalse used =>
    simp only [used, iff_false]
    exact Option.isSome_iff_ne_none.mp ((table idx).keyed used)

theorem contents_of_used (used : (table idx).used ≠ 0)
    : ∃ e, contents table idx = some e :=
  Option.ne_none_iff_exists'.mp (mt contents_eq_none.mp used)

/-- Comparing `used` before the key loses no match. -/
theorem Sound.holds_iff (sound : Sound sized filled table) (idx : Nat)
    : (table idx).holds (hash key) key = true ↔ ∃ e, contents table idx = some e ∧ e.key = key := by
  simp only [Slot.holds, Bool.and_eq_true, beq_iff_eq, Option.any_eq_true]
  constructor
  · rintro ⟨used, e, stored, same⟩
    refine ⟨e, ?_, same⟩
    rw [contents, if_neg (used ▸ hash_ne_zero key), stored]
  · rintro ⟨e, stored, rfl⟩
    have used := sound.hashed idx e stored
    refine ⟨used, e, ?_, rfl⟩
    rwa [contents, if_neg (used ▸ hash_ne_zero e.key)] at stored

theorem Sound.empty (sized : Sized size) : Sound sized 0 (fun _ => (Slot.zero : Slot D)) := by
  have free : contents (fun _ => (Slot.zero : Slot D)) = fun _ => none := rfl
  constructor
  · exact Probed.empty
  · intro idx e stored
    exact nomatch stored
  · simp [free, occupied]

/-- How the search for a key ends: at its entry, at the first free slot of its path, or at
the first index again after a round through a full table.
-/
inductive Ends (sized : Sized size) (table : Nat → Slot D) (key : CString) : Bool → Nat → Prop
  | hit {idx : Nat} {e} (inside : idx ∈ Finset.Icc 1 size) (stored : contents table idx = some e)
    (same : e.key = key)
    : Ends sized table key true idx
  | free {n} (passed : Passed (order sized) Entry.key (contents table) key n)
    (free : contents table ((order sized).visit key n) = none)
    : Ends sized table key false ((order sized).visit key n)
  | full {idx : Nat} (passed : Passed (order sized) Entry.key (contents table) key size)
    : Ends sized table key false idx

section

variable (sound : Sound sized filled table)
include sound

/-- The loop needs at most `size` rounds. -/
theorem Sound.probe_ends (fuel n : Nat) (indices : List Nat) (below : n < size) (enough : size ≤ fuel + n)
    (passed : Passed (order sized) Entry.key (contents table) key (n + 1))
    (indexed : ∀ i ∈ indices, i ∈ Finset.Icc 1 size)
    : ∃ found idx visited,
        probe table size (hash key) (1 + hash key % (size - 2)) (hash key % size + 1) key fuel
            ((order sized).visit key n) indices
          = some (found, idx, visited)
        ∧ Ends sized table key found idx ∧ ∀ i ∈ visited, i ∈ Finset.Icc 1 size := by
  induction fuel generalizing n indices with
  | zero => omega
  | succ fuel ih =>
    have inside := (order sized).inside key (n + 1)
    have grown
        : ∀ i ∈ indices ++ [(order sized).visit key (n + 1)], i ∈ Finset.Icc 1 size := by
      intro i member
      rcases mem_append.mp member with old | new
      · exact indexed i old
      · rw [mem_singleton.mp new]
        exact inside
    rw [probe, order_visit_succ sized key n]
    split
    case isTrue first =>
      have round : n + 1 = size := (order_visit_eq_first sized key n.succ_pos below).mp first
      rw [round] at passed
      exact ⟨false, _, _, rfl, .full passed, grown⟩
    case isFalse later =>
      have more : n + 1 < size := by
        refine Nat.lt_of_le_of_ne below ?_
        intro round
        exact later ((order_visit_eq_first sized key n.succ_pos below).mpr round)
      split
      case isTrue holds =>
        obtain ⟨e, stored, same⟩ := (sound.holds_iff _).mp holds
        exact ⟨true, _, _, rfl, .hit inside stored same, grown⟩
      case isFalse other =>
        split
        case isTrue used =>
          obtain ⟨e, stored⟩ := contents_of_used used
          have differs : e.key ≠ key := by
            intro same
            exact other ((sound.holds_iff _).mpr ⟨e, stored, same⟩)
          exact ih (n + 1) _ more (by omega) (passed.succ stored differs) grown
        case isFalse unused =>
          exact ⟨false, _, _, rfl, .free passed (contents_eq_none.mpr (not_not.mp unused)), grown⟩

private theorem Sound.lookup_ends (key : CString) {fuel : Nat} (enough : size ≤ fuel)
    : ∃ found idx visited, lookup fuel table size key = some (found, idx, visited)
        ∧ Ends sized table key found idx ∧ ∀ i ∈ visited, i ∈ Finset.Icc 1 size := by
  have inside := (order sized).inside key 0
  have indexed : ∀ i ∈ [hash key % size + 1], i ∈ Finset.Icc 1 size := by
    intro i member
    rw [mem_singleton.mp member]
    exact inside
  have none : Passed (order sized) Entry.key (contents table) key 0 :=
    fun j lt => absurd lt (Nat.not_lt_zero j)
  simp only [lookup]
  split
  case isTrue used =>
    split
    case isTrue holds =>
      obtain ⟨e, stored, same⟩ := (sound.holds_iff _).mp holds
      exact ⟨true, _, _, rfl, .hit inside stored same, indexed⟩
    case isFalse other =>
      obtain ⟨e, stored⟩ := contents_of_used used
      have differs : e.key ≠ key := by
        intro same
        exact other ((sound.holds_iff _).mpr ⟨e, stored, same⟩)
      exact sound.probe_ends fuel 0 _ sized.prime.pos enough (none.succ stored differs)
        indexed
  case isFalse unused =>
    exact ⟨false, _, _, rfl, .free none (contents_eq_none.mpr (not_not.mp unused)), indexed⟩

/-- A search that fails has seen that the key is nowhere. -/
theorem Ends.absent (ends : Ends sized table key false idx)
    : Absent (order sized) Entry.key (contents table) key := by
  cases ends with
  | free passed free => exact sound.probed.absent_of_free passed free
  | full passed => exact Absent.of_round (by rwa [card_order_slots])

theorem Ends.at_free (ends : Ends sized table key false idx) (room : filled ≠ size)
    : ∃ n, idx = (order sized).visit key n ∧ Passed (order sized) Entry.key (contents table) key n
        ∧ contents table idx = none := by
  cases ends with
  | free passed free => exact ⟨_, rfl, passed, free⟩
  | full passed =>
    refine absurd ?_ room
    rw [sound.counted, occupied_of_round (by rwa [card_order_slots]), card_order_slots]

end

variable {slot : Slot D}

theorem contents_update {item : Entry D} (used : slot.used = hash item.key)
    (stored : slot.entry = some item)
    : contents (Function.update table idx slot)
      = Function.update (contents table) idx (some item) := by
  funext x
  by_cases same : x = idx
  · subst same
    simp [contents, used, hash_ne_zero, stored]
  · simp [contents, same]

theorem Sound.enter (sound : Sound sized filled table) {item : Entry D} {n : Nat}
    (passed : Passed (order sized) Entry.key (contents table) item.key n)
    (free : contents table ((order sized).visit item.key n) = none) (used : slot.used = hash item.key)
    (stored : slot.entry = some item)
    : Sound sized (filled + 1) (Function.update table ((order sized).visit item.key n) slot) := by
  constructor
  · rw [contents_update used stored]
    exact sound.probed.insert passed free
  · intro idx e held
    rw [contents_update used stored] at held
    by_cases same : idx = (order sized).visit item.key n
    · subst same
      rw [Function.update_self] at held ⊢
      rw [used, ← Option.some.inj held]
    · rw [Function.update_of_ne same] at held ⊢
      exact sound.hashed idx e held
  · rw [contents_update used stored, sound.counted,
      card_occupied_insert ((order sized).inside item.key n) free]

/-- A successful `ENTER`. -/
def Event.entered (event : Event D) : Bool := event.call.action == .enter && event.reply.result.isOk

def storedKeys (history : List (Event D)) : Finset CString :=
  ((history.filter Event.entered).map (fun event => event.call.item.key)).toFinset

/-- The item of the first `ENTER` of a key. -/
def firstEnter (history : List (Event D)) (key : CString) : Option (Entry D) :=
  (history.find? (fun event => event.call.action == .enter && event.call.item.key == key)).map
    (fun event => event.call.item)

/-- A call answers as the history before it demands. -/
structure Event.Answers (size : Nat) (before : List (Event D)) (event : Event D) : Prop where
  /-- `FIND` succeeds exactly for the keys entered before. -/
  find
    : event.call.action = .find
        → (event.reply.result.isOk = true ↔ event.call.item.key ∈ storedKeys before)
          ∧ (event.call.item.key ∉ storedKeys before → event.reply.result = .error .esrch)
  /-- A key entered before is returned with the entry of its first `ENTER`. -/
  first
    : event.call.item.key ∈ storedKeys before → event.reply.result.isOk = true
          ∧ event.entry = firstEnter before event.call.item.key
  /-- `ENTER` of a new key fails exactly when the table is full, and else stores the item. -/
  enter
    : event.call.action = .enter → event.call.item.key ∉ storedKeys before
        → (event.reply.result = .error .enomem ↔ (storedKeys before).card = size)
          ∧ ((storedKeys before).card ≠ size
              → event.reply.result.isOk = true ∧ event.entry = some event.call.item)
  /-- Every index used is one of the slots `1..size`. -/
  indexed : ∀ idx ∈ event.reply.indices, 1 ≤ idx ∧ idx ≤ size

theorem storedKeys_append (before : List (Event D)) (event : Event D)
    : storedKeys (before ++ [event])
      = if event.entered then insert event.call.item.key (storedKeys before)
        else storedKeys before := by
  unfold storedKeys
  cases entered : event.entered with
  | true => simp [List.filter, entered, Finset.union_comm]
  | false => simp [List.filter, entered]

theorem firstEnter_append (before : List (Event D)) (event : Event D) (key : CString)
    : firstEnter (before ++ [event]) key = (firstEnter before key).or (firstEnter [event] key) := by
  unfold firstEnter
  rw [find?_append, Option.map_or]

/-- A table is the one that the calls of a history leave behind. -/
structure Tracks (sized : Sized size) (filled : Nat) (table : Nat → Slot D)
    (history : List (Event D))
    : Prop where
  sound : Sound sized filled table
  stored
    : ∀ key, key ∈ storedKeys history
        ↔ ∃ idx ∈ Finset.Icc 1 size, ∃ e, contents table idx = some e ∧ e.key = key
  first
    : ∀ idx ∈ Finset.Icc 1 size, ∀ e,
        contents table idx = some e → firstEnter history e.key = some e
  counted : filled = (storedKeys history).card
  /-- No `ENTER` fails before the table is full. -/
  room : filled ≠ size → ∀ event ∈ history, event.call.action = .enter → event.entered = true

theorem Tracks.absent_iff (tracks : Tracks sized filled table history)
    : Absent (order sized) Entry.key (contents table) key ↔ key ∉ storedKeys history := by
  rw [tracks.stored key]
  constructor
  · rintro absent ⟨idx, inside, e, stored, same⟩
    exact absent idx inside e stored same
  · intro missing idx inside e stored same
    exact missing ⟨idx, inside, e, stored, same⟩

theorem Tracks.empty (sized : Sized size)
    : Tracks sized 0 (fun _ => (Slot.zero : Slot D)) [] :=
  {
    sound := Sound.empty sized
    stored := by
      intro key
      simp [storedKeys, contents, Slot.zero]
    first := fun _ _ _ stored => nomatch stored
    counted := rfl
    room := fun _ _ member => nomatch member
  }

/-- A call that changes no slot and enters no new key keeps the table of the history. -/
theorem Tracks.unchanged (tracks : Tracks sized filled table history)
    (known : event.entered = true → event.call.item.key ∈ storedKeys history)
    (failed : event.call.action = .enter → event.entered = false → filled = size)
    : Tracks sized filled table (history ++ [event]) := by
  have keys : storedKeys (history ++ [event]) = storedKeys history := by
    rw [storedKeys_append]
    split
    · exact Finset.insert_eq_self.mpr (known ‹_›)
    · rfl
  refine ⟨tracks.sound, ?_, ?_, ?_, ?_⟩
  · intro key
    rw [keys]
    exact tracks.stored key
  · intro idx inside e stored
    rw [firstEnter_append, tracks.first idx inside e stored, Option.some_or]
  · rw [keys]
    exact tracks.counted
  · intro notFull other member enter
    rcases mem_append.mp member with old | new
    · exact tracks.room notFull other old enter
    · rw [mem_singleton] at new
      subst new
      by_contra unentered
      exact notFull (failed enter (by simpa using unentered))

section

variable (tracks : Tracks sized filled table history)
include tracks

/-- A new key in its slot continues the history. -/
theorem Tracks.enter {n : Nat} (action : event.call.action = .enter) (entered : event.entered = true)
    (fresh : event.call.item.key ∉ storedKeys history) (notFull : filled ≠ size)
    (passed : Passed (order sized) Entry.key (contents table) event.call.item.key n)
    (free : contents table ((order sized).visit event.call.item.key n) = none)
    (used : slot.used = hash event.call.item.key) (held : slot.entry = some event.call.item)
    : Tracks sized (filled + 1)
        (Function.update table ((order sized).visit event.call.item.key n) slot)
        (history ++ [event]) := by
  have keys
      : storedKeys (history ++ [event]) = insert event.call.item.key (storedKeys history) := by
    rw [storedKeys_append, if_pos entered]
  have inside := (order sized).inside event.call.item.key n
  -- an earlier `ENTER` of the key would have succeeded and stored it
  have noEarlier : firstEnter history event.call.item.key = none := by
    rw [firstEnter, Option.map_eq_none_iff, find?_eq_none]
    intro other member same
    simp only [Bool.and_eq_true, beq_iff_eq] at same
    have success := tracks.room notFull other member same.1
    apply fresh
    rw [storedKeys, mem_toFinset, ← same.2]
    exact mem_map_of_mem (mem_filter.mpr ⟨member, success⟩)
  refine ⟨tracks.sound.enter passed free used held, ?_, ?_, ?_, ?_⟩
  · intro key
    rw [keys, Finset.mem_insert, contents_update used held, tracks.stored key]
    constructor
    · rintro (rfl | ⟨idx, member, e, stored, same⟩)
      · exact ⟨_, inside, _, Function.update_self .., rfl⟩
      · refine ⟨idx, member, e, ?_, same⟩
        rw [Function.update_of_ne, stored]
        rintro rfl
        rw [free] at stored
        exact nomatch stored
    · rintro ⟨idx, member, e, stored, rfl⟩
      by_cases same : idx = (order sized).visit event.call.item.key n
      · rw [same, Function.update_self] at stored
        exact .inl (by rw [Option.some.inj stored])
      · rw [Function.update_of_ne same] at stored
        exact .inr ⟨idx, member, e, stored, rfl⟩
  · intro idx member e stored
    rw [contents_update used held] at stored
    rw [firstEnter_append]
    by_cases same : idx = (order sized).visit event.call.item.key n
    · rw [same, Function.update_self] at stored
      obtain rfl := Option.some.inj stored
      rw [noEarlier]
      simp [firstEnter, action]
    · rw [Function.update_of_ne same] at stored
      rw [tracks.first idx member e stored, Option.some_or]
  · rw [keys, Finset.card_insert_of_notMem fresh, ← tracks.counted]
  · intro _ other member enter
    rcases mem_append.mp member with old | new
    · exact tracks.room notFull other old enter
    · rw [mem_singleton.mp new]
      exact entered

/-- The key was found: nothing changes, and the entry is the one of its first `ENTER`. -/
theorem Tracks.hit {e : Entry D} (inside : idx ∈ Finset.Icc 1 size) (stored : contents table idx = some e)
    (same : e.key = event.call.item.key) (result : event.reply.result = .ok idx)
    (entry : event.entry = (table idx).entry) (indexed : ∀ i ∈ event.reply.indices, i ∈ Finset.Icc 1 size)
    : event.Answers size history ∧ Tracks sized filled table (history ++ [event]) := by
  have known : event.call.item.key ∈ storedKeys history :=
    (tracks.stored _).mpr ⟨idx, inside, e, stored, same⟩
  have ok : event.reply.result.isOk = true := by rw [result]; rfl
  have used : (table idx).used ≠ 0 := by
    intro free
    rw [contents_eq_none.mpr free] at stored
    exact nomatch stored
  refine ⟨⟨?_, ?_, ?_, ?_⟩, tracks.unchanged (fun _ => known) ?_⟩
  · intro _
    exact ⟨iff_of_true ok known, fun fresh => absurd known fresh⟩
  · intro _
    refine ⟨ok, ?_⟩
    rw [entry, ← same, tracks.first idx inside e stored, ← stored, contents, if_neg used]
  · intro _ fresh
    exact absurd known fresh
  · intro i member
    exact Finset.mem_Icc.mp (indexed i member)
  · intro action failed
    simp [Event.entered, action, ok] at failed

section

variable (absent : Absent (order sized) Entry.key (contents table) event.call.item.key)
include absent

theorem Tracks.missed (action : event.call.action = .find) (result : event.reply.result = .error .esrch)
    (indexed : ∀ i ∈ event.reply.indices, i ∈ Finset.Icc 1 size)
    : event.Answers size history ∧ Tracks sized filled table (history ++ [event]) := by
  have fresh := tracks.absent_iff.mp absent
  have failed : ¬ event.reply.result.isOk = true := by rw [result]; exact Bool.false_ne_true
  refine ⟨⟨?_, ?_, ?_, ?_⟩, tracks.unchanged ?_ ?_⟩
  · intro _
    exact ⟨iff_of_false failed fresh, fun _ => result⟩
  · intro known
    exact absurd known fresh
  · intro enter
    rw [action] at enter
    exact nomatch enter
  · intro i member
    exact Finset.mem_Icc.mp (indexed i member)
  · intro entered
    simp [Event.entered, action] at entered
  · intro enter
    rw [action] at enter
    exact nomatch enter

theorem Tracks.refused (action : event.call.action = .enter) (full : filled = size)
    (result : event.reply.result = .error .enomem)
    (indexed : ∀ i ∈ event.reply.indices, i ∈ Finset.Icc 1 size)
    : event.Answers size history ∧ Tracks sized filled table (history ++ [event]) := by
  have fresh := tracks.absent_iff.mp absent
  have card : (storedKeys history).card = size := tracks.counted ▸ full
  refine ⟨⟨?_, ?_, ?_, ?_⟩, tracks.unchanged ?_ (fun _ _ => full)⟩
  · intro find
    rw [action] at find
    exact nomatch find
  · intro known
    exact absurd known fresh
  · intro _ _
    exact ⟨iff_of_true result card, fun room => absurd card room⟩
  · intro i member
    exact Finset.mem_Icc.mp (indexed i member)
  · intro entered
    rw [Event.entered, result] at entered
    simp [Except.isOk, Except.toBool] at entered

end

/-- `ENTER` of a new key while there is room. -/
theorem Tracks.stored_new {n : Nat} (action : event.call.action = .enter) (notFull : filled ≠ size)
    (passed : Passed (order sized) Entry.key (contents table) event.call.item.key n)
    (free : contents table ((order sized).visit event.call.item.key n) = none)
    (used : slot.used = hash event.call.item.key) (held : slot.entry = some event.call.item)
    (result : event.reply.result = .ok ((order sized).visit event.call.item.key n))
    (entry : event.entry = some event.call.item)
    (indexed : ∀ i ∈ event.reply.indices, i ∈ Finset.Icc 1 size)
    : event.Answers size history ∧ Tracks sized (filled + 1)
          (Function.update table ((order sized).visit event.call.item.key n) slot)
          (history ++ [event]) := by
  have fresh := tracks.absent_iff.mp (tracks.sound.probed.absent_of_free passed free)
  have ok : event.reply.result.isOk = true := by rw [result]; rfl
  have room : (storedKeys history).card ≠ size := tracks.counted ▸ notFull
  refine ⟨⟨?_, ?_, ?_, ?_⟩,
    tracks.enter action (by simp [Event.entered, action, ok]) fresh notFull passed free used
      held⟩
  · intro find
    rw [action] at find
    exact nomatch find
  · intro known
    exact absurd known fresh
  · intro _ _
    refine ⟨iff_of_false ?_ room, fun _ => ⟨ok, entry⟩⟩
    rw [result]
    exact nofun
  · intro i member
    exact Finset.mem_Icc.mp (indexed i member)

end

/-- Every call returns, answers as its history demands and leaves the table of the longer
history.
-/
theorem Tracks.hsearchR_answers (tracks : Tracks sized filled table history) {fuel : Nat}
    (enough : size ≤ fuel) (call : Call D)
    : ∃ reply filled' table',
        hsearchR fuel call.item call.action { table := some table, size, filled }
          = some (reply, { table := some table', size, filled := filled' })
        ∧ ∀ event : Event D, event.call = call → event.reply = reply → event.entry
                = HsearchData.entryAt { table := some table', size, filled := filled' }
                    reply.result
            → event.Answers size history ∧ Tracks sized filled' table' (history ++ [event]) := by
  obtain ⟨found, idx, indices, looked, ends, indexed⟩ :=
    tracks.sound.lookup_ends call.item.key enough
  simp only [hsearchR, Option.bind_eq_bind, Option.bind_some, looked]
  cases found with
  | true =>
    refine ⟨_, _, _, rfl, ?_⟩
    intro event called replied entry
    cases ends with
    | hit inside stored same =>
      refine tracks.hit inside stored (called ▸ same) (by rw [replied]) entry ?_
      rwa [replied]
  | false =>
    have absent := ends.absent tracks.sound
    cases action : call.action with
    | find =>
      refine ⟨_, _, _, rfl, ?_⟩
      intro event called replied entry
      refine tracks.missed (called ▸ absent) (called ▸ action) (by rw [replied]) ?_
      rwa [replied]
    | enter =>
      by_cases full : filled = size
      · simp only [full, if_true]
        refine ⟨_, _, _, rfl, ?_⟩
        intro event called replied entry
        subst full
        refine tracks.refused (called ▸ absent) (called ▸ action) rfl (by rw [replied]) ?_
        rwa [replied]
      · simp only [full, if_false]
        obtain ⟨n, rfl, passed, free⟩ := ends.at_free tracks.sound full
        refine ⟨_, _, _, rfl, ?_⟩
        intro event called replied entry
        subst called
        refine tracks.stored_new action full passed free rfl rfl (by rw [replied]) ?_ ?_
        · rw [entry]
          simp [HsearchData.entryAt]
        · rwa [replied]

/-- The calls of a run one after another. -/
theorem Tracks.run (tracks : Tracks sized filled table history) {fuel : Nat} (enough : size ≤ fuel)
    (calls : List (Call D))
    : ∃ events filled' table', run fuel calls { table := some table, size, filled }
          = some (events, { table := some table', size, filled := filled' })
        ∧ events.map Event.call = calls
        ∧ Tracks sized filled' table' (history ++ events)
        ∧ ∀ before event after, events = before ++ event :: after
            → event.Answers size (history ++ before) := by
  induction calls generalizing history filled table with
  | nil =>
    refine ⟨[], filled, table, rfl, rfl, by rwa [append_nil], ?_⟩
    intro before event after split
    simp at split
  | cons call calls ih =>
    obtain ⟨reply, filled₁, table₁, called, answers⟩ := tracks.hsearchR_answers enough call
    let htab₁ : HsearchData D := { table := some table₁, size, filled := filled₁ }
    let event : Event D := { call, reply, entry := htab₁.entryAt reply.result }
    obtain ⟨answer, tracks₁⟩ := answers event rfl rfl rfl
    obtain ⟨events, filled₂, table₂, ran, same, tracks₂, rest⟩ := ih tracks₁
    refine ⟨event :: events, filled₂, table₂, ?_, ?_, ?_, ?_⟩
    · simp only [Search.run, called, ran, Option.bind_eq_bind, Option.bind_some]
      rfl
    · rw [map_cons, same]
    · rwa [append_assoc] at tracks₂
    · intro before event after split
      cases before with
      | nil =>
        obtain ⟨rfl, -⟩ := List.cons.inj split
        rwa [append_nil]
      | cons head before =>
        obtain ⟨rfl, tail⟩ := List.cons.inj split
        have answered := rest before event after tail
        rwa [append_assoc] at answered

/-- On a table from `__hcreate_r` every sequence of `__hsearch_r` calls ends, each call
answers as the calls before it demand, and `filled` counts the distinct keys entered.
-/
theorem hsearchR_history {nel fuel : Nat} {allocated : Bool} {old : Option (HsearchData D)}
    {errno : Option Errno} {htab : HsearchData D}
    (created : hcreateR allocated nel old = (1, errno, some htab)) (enough : htab.size ≤ fuel)
    (calls : List (Call D))
    : ∃ events htab', Search.run fuel calls htab = some (events, htab')
        ∧ events.map Event.call = calls
        ∧ htab'.filled = (storedKeys events).card
        ∧ ∀ before event after, events = before ++ event :: after
            → event.Answers htab.size before := by
  obtain ⟨sized, zeroed, none⟩ := hcreateR_created created
  obtain ⟨table, size, filled⟩ := htab
  subst zeroed none
  obtain ⟨events, filled, table, ran, same, tracks, answers⟩ :=
    (Tracks.empty sized).run enough calls
  exact ⟨events, _, ran, same, tracks.counted, answers⟩

def threeSlots : HsearchData Nat :=
  { table := some (fun _ => .zero), size := 3, filled := 0 }

/-- The keys `a`, `b`, `c` and `d`, of which the last does not fit. -/
def fourKeys : List (Call Nat) :=
  [ { action := .enter, item := { key := ⟨[97], by decide⟩, data := 1 } },
    { action := .enter, item := { key := ⟨[98], by decide⟩, data := 2 } },
    { action := .enter, item := { key := ⟨[99], by decide⟩, data := 3 } },
    { action := .enter, item := { key := ⟨[100], by decide⟩, data := 4 } },
    { action := .find, item := { key := ⟨[98], by decide⟩, data := 0 } } ]

theorem hsearchR_history_threeSlots
    : hcreateR true 0 (some { table := none, size := 0, filled := 0 }) = (1, none, some threeSlots)
      ∧ ∃ events htab', Search.run 3 fourKeys threeSlots = some (events, htab')
          ∧ events.map Event.call = fourKeys
          ∧ htab'.filled = (storedKeys events).card
          ∧ ∀ before event after, events = before ++ event :: after → event.Answers 3 before := by
  have created
      : hcreateR true 0 (some { table := none, size := 0, filled := 0 })
        = (1, none, some threeSlots) := by
    simp [hcreateR, nextPrime, isprime, isprimeLoop, uintMax, threeSlots]
  exact ⟨created, hsearchR_history created (Nat.le_refl 3) fourKeys⟩

end Nglibc.Search
