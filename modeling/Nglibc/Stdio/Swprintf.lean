import Mathlib.Data.List.Forall2
import Nglibc.Stdio.Mb2wc
import Nglibc.Stdio.Output

/-! Wide output into a string: `__fputwc_unlocked` encodes the characters and `sw_write` decodes
them into the array of `__vswprintf`.
-/

namespace Nglibc.Stdio

open Utf8 List

variable {W : Type}

/-- The word that `__fputwc_unlocked` builds for a character from 0x80 on, whose memory holds
the bytes in order, and their number.
-/
def fputwcWord (c : BitVec 32) : Option (BitVec 32 × Nat) :=
  let finish (mbc : BitVec 32) (sh : Nat) : BitVec 32 × Nat :=
    (mbc ||| 0x80C0#32 ||| (if sh = 12 then 1#32 else 0#32) <<< 5, sh / 4)
  let mbc := c >>> 6 &&& 0x3F#32 ||| (c &&& 0x3F#32) <<< 8
  if c < 0x800#32 then some (finish mbc 8)
  else
    let mbc := mbc <<< 8 ||| c >>> 12 &&& 0x3F#32 ||| 0x808080#32
    if c < 0xD800#32 ∨ c - 0xE000#32 < 0x2000#32 then some (finish mbc 12)
    else
      let mbc := mbc <<< 8 ||| c >>> 18 &&& 0x3F#32 ||| 0xF0#32
      if c - 0x10000#32 < 0x100000#32 then some (finish mbc 18) else none

def wordBytes (word : BitVec 32) (len : Nat) : List UInt8 :=
  (List.range len).map (fun i => toByte (word >>> (8 * i)))

def fputwcUnlocked (write : WriteFn W) (c : BitVec 32) (s : Streambuf W)
    : BitVec 32 × Streambuf W :=
  if c < 0x80#32 then
    let (r, s) := overflowx write c.toNat s
    if r ≠ eofValue then (c, s) else (weof, { s with err := true })
  else
    match fputwcWord c with
    | none => (weof, { s with err := true })
    | some (mbc, len) =>
      let (n, s) := fwritex (some write) (wordBytes mbc len) s
      if n = len then (c, s) else (weof, { s with err := true })

/-- The cookie of `__vswprintf`: the array, the place `ws` in it and the characters left. -/
structure WideCookie where
  array : Memory (BitVec 32)
  ws : Nat
  l : Nat

/-- The loop of `sw_write` over `l` bytes at the address `s`, and whether it ends with an
invalid character. The argument before them is `c->l`.
-/
def swWriteLoop (memory : Memory UInt8)
    : Nat → Nat → Nat → Memory (BitVec 32) → Nat → Bool × WideCookie
  | 0, _, _, array, ws => (false, ⟨array, ws, 0⟩)
  | room + 1, s, l, array, ws =>
    if l = 0 then (false, ⟨array, ws, room + 1⟩)
    else
      let r := mb2wc memory s
      let array := match r.wc with
        | some c => array.store ws [c]
        | none => array
      if r.ret < 0 then (true, ⟨array, ws, room + 1⟩)
      else
        let i := if r.ret = 0 then 1 else r.ret.toNat
        swWriteLoop memory room (s + i) (toSizeT (l - i)) array (ws + 1)

/-- `sw_write` behind `__pflush`, for the bytes at the address `s`. -/
def swWritePiece (memory : Memory UInt8) (s l : Nat) (f : Streambuf WideCookie)
    : Streambuf WideCookie :=
  let (failed, c) := swWriteLoop memory f.cookie.l s l f.cookie.array f.cookie.ws
  let f := { f with cookie := { c with array := c.array.store c.ws [0] } }
  if failed then f.fseterror else f.fsetwrite

/-- `sw_write`. `__pflush` calls it for the pending bytes, unless its buffer argument is the
start of them; the last call in `__vswprintf` passes a null pointer. By the precedence of the
comma the result is `all` in both cases. `beyond` is what stands behind the bytes in memory.
-/
def swWrite (beyond : Memory UInt8) : WriteFn WideCookie := fun f bytes =>
  let f :=
    if bytes = [] ∧ f.pbase = 0 then f
    else swWritePiece f.memory f.pbase (f.pptr - f.pbase) f
  (bytes.length, swWritePiece (beyond.store 0 bytes) 0 bytes.length f)

/-- The stream of `__vswprintf` over an array of `n` characters. The last four bytes of its
buffer are kept free.
-/
def vswprintfStream (memory : Memory UInt8) (array : Memory (BitVec 32)) (buf n : Nat)
    : Streambuf WideCookie :=
  Streambuf.finit false false false false memory ⟨array, 0, n - 1⟩ buf (256 - 4)

def fputwcs (write : WriteFn W) (chars : List (BitVec 32)) (s : Streambuf W) : Streambuf W :=
  chars.foldl (fun s c => (fputwcUnlocked write c s).2) s

/-! The bytes of a character -/

theorem fputwcWord_two (v : UInt32) (high : v.toBitVec.toNat < 0x800)
    : ∃ mbc, fputwcWord v.toBitVec = some (mbc, 2)
      ∧ wordBytes mbc 2 = [(v >>> 6).toUInt8 &&& 0x1F ||| 0xC0, v.toUInt8 &&& 0x3F ||| 0x80] := by
  have bit := getElem_of_lt (k := 11) high (Nat.le_refl 11) (by decide)
  refine ⟨_, if_pos high, ?_⟩
  simp only [wordBytes, List.range, List.range.loop, map_cons, map_nil,
    List.cons.injEq, and_true]
  refine ⟨toByte_eq ?_, toByte_eq ?_⟩
  all_goals
    intro i small
    interval_cases i <;> simp [bit]

private theorem fputwcWord_three (v : UInt32) (low : 0x800 ≤ v.toBitVec.toNat)
    (high : v.toBitVec.toNat < 0x10000)
    (scalar : v.toBitVec.toNat < 0xD800 ∨ 0xE000 ≤ v.toBitVec.toNat)
    : ∃ mbc, fputwcWord v.toBitVec = some (mbc, 3) ∧ wordBytes mbc 3
        = [(v >>> 12).toUInt8 &&& 0x0F ||| 0xE0, (v >>> 6).toUInt8 &&& 0x3F ||| 0x80,
          v.toUInt8 &&& 0x3F ||| 0x80] := by
  have bit (i : Nat) (above : 16 ≤ i) (width : i < 32) := getElem_of_lt (k := 16) high above width
  have several : ¬ v.toBitVec < 0x800#32 := by
    exact Nat.not_lt.mpr low
  have basic : v.toBitVec < 0xD800#32 ∨ v.toBitVec - 0xE000#32 < 0x2000#32 := by
    rw [BitVec.lt_def, BitVec.lt_def, BitVec.toNat_sub]
    simp only [BitVec.toNat_ofNat]
    omega
  refine ⟨_, (if_neg several).trans (if_pos basic), ?_⟩
  simp only [wordBytes, List.range, List.range.loop, map_cons, map_nil,
    List.cons.injEq, and_true]
  refine ⟨toByte_eq ?_, toByte_eq ?_, toByte_eq ?_⟩
  all_goals
    intro i small
    interval_cases i <;> simp [bit]

private theorem fputwcWord_four (v : UInt32) (low : 0x10000 ≤ v.toBitVec.toNat)
    (high : v.toBitVec.toNat < 0x110000)
    : ∃ mbc, fputwcWord v.toBitVec = some (mbc, 4) ∧ wordBytes mbc 4
        = [(v >>> 18).toUInt8 &&& 0x07 ||| 0xF0, (v >>> 12).toUInt8 &&& 0x3F ||| 0x80,
          (v >>> 6).toUInt8 &&& 0x3F ||| 0x80, v.toUInt8 &&& 0x3F ||| 0x80] := by
  have bit (i : Nat) (above : 21 ≤ i) (width : i < 32) :=
    getElem_of_lt (k := 21) (v := v.toBitVec) (by omega) above width
  have several : ¬ v.toBitVec < 0x800#32 := by
    exact Nat.not_lt.mpr (Nat.le_trans (by decide) low)
  have large : ¬ (v.toBitVec < 0xD800#32 ∨ v.toBitVec - 0xE000#32 < 0x2000#32) := by
    rw [BitVec.lt_def, BitVec.lt_def, BitVec.toNat_sub]
    simp only [BitVec.toNat_ofNat]
    omega
  have valid : v.toBitVec - 0x10000#32 < 0x100000#32 := by
    rw [BitVec.lt_def, BitVec.toNat_sub]
    simp only [BitVec.toNat_ofNat]
    omega
  refine ⟨_, (if_neg several).trans ((if_neg large).trans (if_pos valid)), ?_⟩
  simp only [wordBytes, List.range, List.range.loop, map_cons, map_nil,
    List.cons.injEq, and_true]
  refine ⟨toByte_eq ?_, toByte_eq ?_, toByte_eq ?_, toByte_eq ?_⟩
  all_goals
    intro i small
    interval_cases i <;> simp [bit]

theorem fputwcWord_encode {c : Char} (several : 0x80 ≤ c.val.toNat)
    : ∃ mbc, fputwcWord c.val.toBitVec = some (mbc, (String.utf8EncodeChar c).length)
      ∧ wordBytes mbc (String.utf8EncodeChar c).length = String.utf8EncodeChar c := by
  rcases encode_bits c with ⟨small, bytes⟩ | ⟨low, high, bytes⟩ | ⟨low, high, scalar, bytes⟩
    | ⟨low, high, bytes⟩
  · exact absurd several (Nat.not_le.mpr small)
  · rw [bytes]
    exact fputwcWord_two c.val high
  · rw [bytes]
    exact fputwcWord_three c.val low high scalar
  · rw [bytes]
    exact fputwcWord_four c.val low high

/-! What comes out of the decoder -/

/-- The character that comes out is the one that went in exactly if that is below 0x80. -/
def PlainOnly (v : BitVec 32) (c : Char) : Prop := v = c.val.toBitVec ↔ c.val.toNat < 0x80

/-- The bytes of `chars` have been decoded into the array from `ws` on. Each character makes
at most one, and if each makes one, only those below 0x80 come out unchanged.
-/
structure Decoded (chars : List Char) (room : Nat) (array : Memory (BitVec 32)) (ws : Nat)
    (c : WideCookie) : Prop where
  le : ws ≤ c.ws
  most : c.ws ≤ ws + chars.length
  left : c.l + c.ws = room + ws
  before : ∀ i, i < ws → c.array i = array i
  plain : c.ws = ws + chars.length → List.Forall₂ PlainOnly (c.array.slice ws chars.length) chars
  complete : (∀ c ∈ chars, c.val.toNat < 0x80) → chars.length ≤ room → c.ws = ws + chars.length

theorem Decoded.nil (room : Nat) (array : Memory (BitVec 32)) (ws : Nat)
    : Decoded [] room array ws ⟨array, ws, room⟩ where
  le := le_rfl
  most := le_rfl
  left := rfl
  before _ _ := rfl
  plain _ := .nil
  complete _ _ := rfl

variable {chars : List Char} {f : Streambuf WideCookie} {array : Memory (BitVec 32)}
  {memory : Memory UInt8} {room : Nat} {ws : Nat}

private theorem Decoded.stuck (some_ : chars ≠ []) (why : room = 0 ∨ ∃ c ∈ chars, 0x80 ≤ c.val.toNat)
    : Decoded chars room array ws ⟨array, ws, room⟩ where
  le := le_rfl
  most := Nat.le_add_right _ _
  left := rfl
  before _ _ := rfl
  plain all := by
    have length := length_pos_of_ne_nil some_
    simp only at all
    omega
  complete ascii fits := by
    have length := length_pos_of_ne_nil some_
    rcases why with none | ⟨c, member, several⟩
    · omega
    · have small := ascii c member
      omega

/-- One character and then the others. -/
theorem Decoded.cons {c : Char} {v : BitVec 32} {cookie : WideCookie} (plain : PlainOnly v c)
    (later : Decoded chars room (array.store ws [v]) (ws + 1) cookie)
    : Decoded (c :: chars) (room + 1) array ws cookie where
  le := Nat.le_of_succ_le later.le
  most := by
    have most := later.most
    rw [length_cons]
    omega
  left := by
    have left := later.left
    omega
  before i below := by
    rw [later.before i (by omega)]
    exact Memory.store_outside (.inl below)
  plain all := by
    have first : cookie.array ws = v := by
      rw [later.before ws (Nat.lt_succ_self ws)]
      simp [Memory.store]
    rw [length_cons] at all ⊢
    rw [Memory.slice_succ, first]
    exact .cons plain (later.plain (by omega))
  complete ascii fits := by
    rw [length_cons] at fits ⊢
    rw [later.complete (fun c member => ascii c (mem_cons_of_mem _ member)) (by omega)]
    omega

/-- One character, and no other one. -/
theorem Decoded.broken {c : Char} {v : BitVec 32} (plain : PlainOnly v c) (several : 0x80 ≤ c.val.toNat)
    : Decoded (c :: chars) (room + 1) array ws ⟨array.store ws [v], ws + 1, room⟩ where
  le := Nat.le_succ ws
  most := by
    simp only [length_cons]
    omega
  left := by
    simp only
    omega
  before i below := Memory.store_outside (.inl below)
  plain all := by
    have none : chars = [] := by
      simp only [length_cons] at all
      exact length_eq_zero_iff.mp (by omega)
    rw [none]
    refine .cons ?_ .nil
    simpa [Memory.store] using plain
  complete ascii _ := by
    have small := ascii c mem_cons_self
    omega

/-- A continuation byte where a character should start ends the loop. -/
theorem swWriteLoop_tail {s l : Nat} (tail : IsTail (memory s).toNat) (some_ : l ≠ 0) (room : Nat)
    (array : Memory (BitVec 32)) (ws : Nat)
    : (swWriteLoop memory room s l array ws).2 = ⟨array, ws, room⟩ := by
  have invalid : mb2wc memory s = Mb.invalid := by
    obtain ⟨low, high⟩ := tail
    rw [mb2wc_decodeAbove, decodeAbove, if_neg (by omega), if_pos (by omega)]
  cases room with
  | zero => rfl
  | succ room =>
    rw [swWriteLoop, if_neg some_, invalid]
    rfl

theorem swWriteLoop_step {s l i : Nat} {v : BitVec 32}
    (decoded : mb2wc memory s = ⟨i, some v⟩ ∨ i = 1 ∧ mb2wc memory s = ⟨0, some v⟩) (positive : 0 < i)
    (fits : i ≤ l) (small : l < 2 ^ 64) (room : Nat) (array : Memory (BitVec 32)) (ws : Nat)
    : swWriteLoop memory (room + 1) s l array ws
      = swWriteLoop memory room (s + i) (l - i) (array.store ws [v]) (ws + 1) := by
  have less : toSizeT (l - i) = l - i := by
    rw [← Int.ofNat_sub fits]
    exact toSizeT_natCast (by omega)
  rw [swWriteLoop, if_neg (by omega)]
  rcases decoded with decoded | ⟨rfl, decoded⟩
  · have nonneg : ¬ (i : Int) < 0 := by omega
    have nonzero : ¬ (i : Int) = 0 := by omega
    simp only [decoded, nonneg, nonzero, if_false, Int.toNat_natCast, less]
  · simp only [decoded, Int.lt_irrefl, if_false, if_true, less]

/-- By induction on the room in the array. -/
theorem swWriteLoop_decoded {s l : Nat} (bytes : memory.slice s l = chars.flatMap String.utf8EncodeChar)
    (small : l < 2 ^ 64) (room : Nat) (array : Memory (BitVec 32)) (ws : Nat)
    : Decoded chars room array ws (swWriteLoop memory room s l array ws).2 := by
  induction room generalizing s l array ws chars with
  | zero =>
    cases chars with
    | nil => exact .nil 0 array ws
    | cons c chars => exact .stuck (cons_ne_nil c chars) (.inl rfl)
  | succ room ih =>
    have length := congrArg List.length bytes
    rw [Memory.length_slice] at length
    cases chars with
    | nil =>
      rw [swWriteLoop, if_pos (show l = 0 from length)]
      exact .nil (room + 1) array ws
    | cons c chars =>
      rw [flatMap_cons] at bytes length
      rw [length_append] at length
      have positive := length_pos_of_ne_nil (utf8EncodeChar_ne_nil c)
      have starts : StartsWith memory s c := by
        rw [StartsWith, ← Memory.take_slice (n := l) (by omega), bytes, take_left]
      have rest : memory.slice (s + (String.utf8EncodeChar c).length)
          (l - (String.utf8EncodeChar c).length) = chars.flatMap String.utf8EncodeChar := by
        rw [← Memory.drop_slice (by omega), bytes, drop_left]
      have some_ : l ≠ 0 := by omega
      by_cases ascii : c.val.toNat < 0x80
      · have one : (String.utf8EncodeChar c).length = 1 := by
          rw [utf8EncodeChar_one ascii, length_singleton]
        have decoded := mb2wc_ascii starts ascii
        have shape : mb2wc memory s = ⟨(1 : Nat), some c.val.toBitVec⟩
            ∨ 1 = 1 ∧ mb2wc memory s = ⟨0, some c.val.toBitVec⟩ := by
          by_cases null : c.val.toNat = 0
          · exact .inr ⟨rfl, by rw [decoded, if_neg (not_not_intro null)]⟩
          · exact .inl (by rw [decoded, if_pos null]; rfl)
        rw [one] at rest
        rw [swWriteLoop_step shape Nat.one_pos (by omega) small]
        exact .cons (iff_of_true rfl ascii) (ih rest (by omega) _ _)
      · have plain {v : BitVec 32} (other : v ≠ c.val.toBitVec) : PlainOnly v c :=
          iff_of_false other ascii
        rcases mb2wc_multibyte starts (by omega) with refused
          | ⟨k, v, decoded, other, whole | ⟨short, tail⟩⟩
        · rw [swWriteLoop, if_neg some_, refused]
          exact .stuck (cons_ne_nil c chars) (.inr ⟨c, mem_cons_self, by omega⟩)
        · rw [swWriteLoop_step (.inl decoded) (Nat.succ_pos k) (by omega) small]
          rw [← whole] at rest
          exact .cons (plain other) (ih rest (by omega) _ _)
        · -- the rest of the character stops the loop
          rw [swWriteLoop_step (.inl decoded) (Nat.succ_pos k) (by omega) small,
            swWriteLoop_tail tail (by omega)]
          exact .broken (plain other) (by omega)

/-- Two pieces, one behind the other. -/
theorem Decoded.append {first second : List Char} {c c' : WideCookie}
    (former : Decoded first room array ws c) (latter : Decoded second c.l c.array c.ws c')
    : Decoded (first ++ second) room array ws c' where
  le := Nat.le_trans former.le latter.le
  most := by
    have most := former.most
    have most' := latter.most
    rw [length_append]
    omega
  left := by
    have left := former.left
    have left' := latter.left
    omega
  before i below := by
    have le := former.le
    rw [latter.before i (by omega), former.before i below]
  plain all := by
    have most := former.most
    have most' := latter.most
    rw [length_append] at all ⊢
    have here : c.ws = ws + first.length := by omega
    have kept : c'.array.slice ws first.length = c.array.slice ws first.length := by
      apply Memory.slice_congr
      intro x low high
      exact latter.before x (by omega)
    rw [Memory.slice_add, kept, ← here]
    exact rel_append (former.plain here) (latter.plain (by omega))
  complete ascii fits := by
    rw [length_append] at fits ⊢
    have left := former.left
    have here := former.complete (fun c member => ascii c (mem_append_left _ member))
      (by omega)
    have there := latter.complete (fun c member => ascii c (mem_append_right _ member))
      (by omega)
    omega

/-- The terminator behind the characters. -/
theorem Decoded.terminate {c : WideCookie} (decoded : Decoded chars room array ws c)
    : Decoded chars room array ws { c with array := c.array.store c.ws [0] } where
  le := decoded.le
  most := decoded.most
  left := decoded.left
  before i below := by
    have le := decoded.le
    rw [← decoded.before i below]
    exact Memory.store_outside (.inl (by omega))
  plain all := by
    have kept : (c.array.store c.ws [0]).slice ws chars.length = c.array.slice ws chars.length :=
      Memory.slice_store_disjoint (.inl (Nat.le_of_eq all.symm))
    rw [kept]
    exact decoded.plain all
  complete := decoded.complete

/-- The stream of `__vswprintf` with the bytes of `chars` pending. -/
structure Buffers (f : Streambuf WideCookie) (chars : List Char) : Prop where
  noWr : f.noWr = false
  lbf : f.lbf = false
  positive : 0 < f.buf
  size : f.bufend = f.buf + (256 - 4)
  idle : f.curWr = false → chars = []
  area : f.pptr = 0 ∧ f.pbase = 0 ∧ f.epptr = 0 ∧ chars = []
    ∨ f.pbase = f.buf ∧ f.buf ≤ f.pptr ∧ f.pptr ≤ f.bufend ∧ f.epptr = f.bufend
  bytes : f.memory.slice f.pbase (f.pptr - f.pbase) = chars.flatMap String.utf8EncodeChar

/-- A step from `f` to `f'` that has decoded `chars`. -/
def Writes (chars : List Char) (f f' : Streambuf WideCookie) : Prop :=
  Decoded chars f.cookie.l f.cookie.array f.cookie.ws f'.cookie

theorem Writes.refl (f : Streambuf WideCookie) : Writes [] f f := Decoded.nil _ _ _

theorem Writes.congr {f f' g g' : Streambuf WideCookie} (writes : Writes chars f f')
    (before : g.cookie = f.cookie) (after : g'.cookie = f'.cookie)
    : Writes chars g g' := by
  unfold Writes
  rw [before, after]
  exact writes

theorem Writes.append {first second : List Char} {f₁ f₂ f₃ : Streambuf WideCookie}
    (former : Writes first f₁ f₂) (latter : Writes second f₂ f₃)
    : Writes (first ++ second) f₁ f₃ :=
  Decoded.append former latter

private theorem swWritePiece_writes {s l : Nat} {chars pending : List Char} (buffers : Buffers f pending)
    (bytes : memory.slice s l = chars.flatMap String.utf8EncodeChar) (small : l < 2 ^ 64)
    : Buffers (swWritePiece memory s l f) [] ∧ Writes chars f (swWritePiece memory s l f)
      ∧ (swWritePiece memory s l f).cookie.array (swWritePiece memory s l f).cookie.ws = 0 := by
  have decoded := (swWriteLoop_decoded bytes small f.cookie.l f.cookie.array f.cookie.ws).terminate
  have size := buffers.size
  rcases result : swWriteLoop memory f.cookie.l s l f.cookie.array f.cookie.ws with ⟨failed, c⟩
  rw [result] at decoded
  simp only [swWritePiece, result]
  cases failed with
  | true =>
    refine ⟨⟨buffers.noWr, buffers.lbf, buffers.positive, size, fun _ => rfl, .inl ⟨rfl, rfl, rfl, rfl⟩, rfl⟩,
      decoded, ?_⟩
    simp [Memory.store, Streambuf.fseterror]
  | false =>
    refine ⟨⟨buffers.noWr, buffers.lbf, buffers.positive, size, fun _ => rfl,
      .inr ⟨rfl, le_rfl, ?_, rfl⟩, ?_⟩, decoded, ?_⟩
    · simp only [Streambuf.fsetwrite, Bool.false_eq_true, if_false]
      omega
    · simp [Streambuf.fsetwrite]
    · simp [Memory.store, Streambuf.fsetwrite]

theorem Buffers.pending_le (buffers : Buffers f chars)
    : f.pptr - f.pbase ≤ 252 := by
  have size := buffers.size
  rcases buffers.area with ⟨_, _, _, _⟩ | ⟨_, _, _, _⟩ <;> omega

theorem swWrite_writes {pending chars : List Char} {bytes : List UInt8} (beyond : Memory UInt8)
    (buffers : Buffers f pending) (encoded : bytes = chars.flatMap String.utf8EncodeChar)
    (small : bytes.length < 2 ^ 64)
    : ∃ f', swWrite beyond f bytes = (Int.ofNat bytes.length, f') ∧ Buffers f' []
      ∧ Writes (pending ++ chars) f f'
      ∧ f'.cookie.array f'.cookie.ws = 0 := by
  have own : (beyond.store 0 bytes).slice 0 bytes.length = chars.flatMap String.utf8EncodeChar := by
    rw [Memory.slice_store_self, encoded]
  refine ⟨_, rfl, ?_⟩
  split
  · rename_i null
    have none : pending = [] := by
      rcases buffers.area with ⟨_, _, _, none⟩ | ⟨base, _⟩
      · exact none
      · have positive := buffers.positive
        omega
    rw [none]
    exact swWritePiece_writes buffers own small
  · have limit := buffers.pending_le
    obtain ⟨buffers', writes, _⟩ := swWritePiece_writes buffers buffers.bytes (by omega)
    obtain ⟨buffers'', writes', terminated⟩ := swWritePiece_writes buffers' own small
    exact ⟨buffers'', writes.append writes', terminated⟩

theorem Buffers.towrite (buffers : Buffers f chars)
    : ∃ t, f.towrite = (0, t) ∧ Buffers t chars ∧ t.cookie = f.cookie ∧ t.curWr = true := by
  cases mode : f.curWr with
  | true =>
    refine ⟨f, ?_, buffers, rfl, mode⟩
    simp [Streambuf.towrite, mode]
  | false =>
    obtain rfl := buffers.idle mode
    have size := buffers.size
    refine ⟨Streambuf.fsetwrite { f with curWr := true, gptr := 0, egptr := 0 }, ?_, ?_, rfl, rfl⟩
    · simp [Streambuf.towrite, mode, buffers.noWr]
    · refine ⟨buffers.noWr, buffers.lbf, buffers.positive, size, fun _ => rfl,
        .inr ⟨rfl, le_rfl, ?_, rfl⟩, ?_⟩
      · simp only [Streambuf.fsetwrite]
        omega
      · simp [Streambuf.fsetwrite]

theorem Buffers.append {c : Char} (buffers : Buffers f chars) (mode : f.curWr = true)
    (fits : (String.utf8EncodeChar c).length ≤ f.epptr - f.pptr)
    : Buffers (f.append (String.utf8EncodeChar c)) (chars ++ [c]) := by
  have positive := length_pos_of_ne_nil (utf8EncodeChar_ne_nil c)
  rcases buffers.area with ⟨_, _, _, _⟩ | ⟨base, low, high, bound⟩
  · omega
  · refine ⟨buffers.noWr, buffers.lbf, buffers.positive, buffers.size, ?_,
      .inr ⟨base, ?_, ?_, bound⟩, ?_⟩
    · intro idle
      exact absurd (mode.symm.trans idle) (by decide)
    · simp only [Streambuf.append]
      omega
    · simp only [Streambuf.append]
      omega
    · simp only [Streambuf.append]
      rw [flatMap_append, ← buffers.bytes, flatMap_singleton,
        show f.pptr + (String.utf8EncodeChar c).length - f.pbase
          = f.pptr - f.pbase + (String.utf8EncodeChar c).length by omega]
      have place : f.pbase + (f.pptr - f.pbase) = f.pptr := by omega
      rw [← Memory.slice_store_append, place]

/-- What `__fputwc_unlocked` does with one more character: some of the characters so far are
decoded, in order, and the others are pending.
-/
theorem fputwc_writes {pending : List Char} (beyond : Memory UInt8) (buffers : Buffers f pending)
    (c : Char)
    : ∃ flushed pending', pending ++ [c] = flushed ++ pending'
        ∧ Buffers (fputwcUnlocked (swWrite beyond) c.val.toBitVec f).2 pending'
        ∧ Writes flushed f (fputwcUnlocked (swWrite beyond) c.val.toBitVec f).2 := by
  by_cases ascii : c.val.toNat < 0x80
  · have below : c.val.toBitVec < 0x80#32 := ascii
    have byte : [UInt8.ofInt c.val.toNat] = [c].flatMap String.utf8EncodeChar := by
      have same := ofInt_toNat (UInt8.ofNat c.val.toNat)
      rw [toNat_ofNat (by omega)] at same
      rw [flatMap_singleton, utf8EncodeChar_one ascii, same]
    obtain ⟨t, entered, buffers', cookie⟩ : ∃ t,
        (if f.epptr = 0 then f.towrite else (0, f)) = (0, t) ∧ Buffers t pending
        ∧ t.cookie = f.cookie := by
      by_cases null : f.epptr = 0
      · obtain ⟨t, entered, buffers', cookie, _⟩ := buffers.towrite
        exact ⟨t, by rw [if_pos null, entered], buffers', cookie⟩
      · exact ⟨f, if_neg null, buffers, rfl⟩
    obtain ⟨f', run, buffers'', writes, _⟩ := swWrite_writes beyond buffers' byte (by simp)
    have same : (fputwcUnlocked (swWrite beyond) c.val.toBitVec f).2 = f' := by
      have run' : swWrite beyond t [UInt8.ofInt c.val.toBitVec.toNat] = (1, f') := run
      have nonneg : ¬ ((UInt8.ofInt c.val.toBitVec.toNat).toNat : Int) = eofValue := by
        unfold eofValue
        omega
      simp only [fputwcUnlocked, if_pos below, overflowx, entered, ne_eq, not_true_eq_false,
        if_false, buffers'.lbf, Bool.false_eq_true, and_false, run', nonneg, not_false_eq_true,
        if_true]
    rw [same]
    exact ⟨pending ++ [c], [], by simp, buffers'', writes.congr cookie.symm rfl⟩
  · obtain ⟨mbc, word, bytes⟩ := fputwcWord_encode (c := c) (by omega)
    have several : ¬ c.val.toBitVec < 0x80#32 := ascii
    obtain ⟨t, entered, buffers', cookie, mode⟩ := buffers.towrite
    have limit : (String.utf8EncodeChar c).length < 2 ^ 64 := by
      have four := c.utf8Size_le_four
      rw [String.length_utf8EncodeChar]
      omega
    by_cases direct : (String.utf8EncodeChar c).length > t.epptr - t.pptr
    · have encoded : String.utf8EncodeChar c = [c].flatMap String.utf8EncodeChar :=
        (flatMap_singleton ..).symm
      obtain ⟨f', run, buffers'', writes, _⟩ := swWrite_writes beyond buffers' encoded limit
      have same : (fputwcUnlocked (swWrite beyond) c.val.toBitVec f).2 = f' := by
        simp only [fputwcUnlocked, if_neg several, word, bytes, fwritex, entered, ne_eq,
          not_true_eq_false, if_false, if_pos direct, run, Int.ofNat_eq_natCast,
          toSizeT_natCast limit, if_true]
      rw [same]
      exact ⟨pending ++ [c], [], by simp, buffers'', writes.congr cookie.symm rfl⟩
    · have same : (fputwcUnlocked (swWrite beyond) c.val.toBitVec f).2
          = t.append (String.utf8EncodeChar c) := by
        simp only [fputwcUnlocked, if_neg several, word, bytes, fwritex, entered, ne_eq,
          not_true_eq_false, if_false, if_neg direct, buffers'.lbf, Bool.false_eq_true, false_and,
          if_true]
      rw [same]
      exact ⟨[], pending ++ [c], rfl, buffers'.append mode (by omega),
        (Writes.refl t).congr cookie.symm rfl⟩

/-- By induction on the characters. -/
theorem fputwcs_writes {pending : List Char} (beyond : Memory UInt8) (buffers : Buffers f pending)
    (chars : List Char)
    : ∃ flushed pending', pending ++ chars = flushed ++ pending'
        ∧ Buffers (fputwcs (swWrite beyond) (chars.map (fun c => c.val.toBitVec)) f) pending'
        ∧ Writes flushed f (fputwcs (swWrite beyond) (chars.map (fun c => c.val.toBitVec)) f) := by
  induction chars generalizing f pending with
  | nil => exact ⟨[], pending, by simp, buffers, .refl f⟩
  | cons c chars ih =>
    obtain ⟨flushed, pending₁, split₁, buffers₁, writes₁⟩ := fputwc_writes beyond buffers c
    obtain ⟨flushed', pending₂, split₂, buffers₂, writes₂⟩ := ih buffers₁
    refine ⟨flushed ++ flushed', pending₂, ?_, buffers₂, writes₁.append writes₂⟩
    rw [append_assoc, ← split₂, ← append_assoc, ← split₁]
    simp

/-- The array after a string was written and `sw_write` was called for what is pending. -/
def wideResult (beyond : Memory UInt8) (chars : List Char) (f : Streambuf WideCookie)
    : Memory (BitVec 32) :=
  (swWrite beyond (fputwcs (swWrite beyond) (chars.map (fun c => c.val.toBitVec)) f) [])
    |>.2.cookie.array

theorem vswprintfStream_buffers (memory : Memory UInt8) (array : Memory (BitVec 32)) {buf : Nat}
    (positive : 0 < buf) (n : Nat)
    : Buffers (vswprintfStream memory array buf n) [] where
  noWr := rfl
  lbf := rfl
  positive := positive
  size := rfl
  idle _ := rfl
  area := .inl ⟨rfl, rfl, rfl, rfl⟩
  bytes := rfl

theorem wideResult_decoded (beyond memory : Memory UInt8) (array : Memory (BitVec 32)) {buf : Nat}
    (positive : 0 < buf) (n : Nat) (chars : List Char)
    : ∃ c, Decoded chars (n - 1) array 0 c
      ∧ c.array = wideResult beyond chars (vswprintfStream memory array buf n)
      ∧ c.array c.ws = 0 := by
  obtain ⟨flushed, pending, split, buffers, writes⟩ := fputwcs_writes beyond
    (vswprintfStream_buffers memory array positive n) chars
  obtain ⟨f', run, _, writes', terminated⟩ := swWrite_writes beyond buffers
    (show [] = [].flatMap String.utf8EncodeChar from rfl) (by decide)
  rw [append_nil] at writes'
  have all := writes.append writes'
  rw [← split] at all
  refine ⟨f'.cookie, all, ?_, terminated⟩
  rw [wideResult, run]

/-- By induction on the characters. -/
theorem eq_map_of_plainOnly {out : List (BitVec 32)} (plain : List.Forall₂ PlainOnly out chars)
    (ascii : ∀ c ∈ chars, c.val.toNat < 0x80)
    : out = chars.map (fun c => c.val.toBitVec) := by
  induction plain with
  | nil => rfl
  | @cons v c out chars first _ ih =>
    rw [map_cons, first.mpr (ascii c mem_cons_self),
      ih (fun c member => ascii c (mem_cons_of_mem _ member))]

/-- A string comes out unchanged exactly if all its characters are below 0x80. -/
theorem wideResult_iff (beyond memory : Memory UInt8) (array : Memory (BitVec 32)) {buf n : Nat}
    (positive : 0 < buf) (nonzero : ∀ c ∈ chars, c.val ≠ 0) (fits : chars.length < n)
    : (wideResult beyond chars (vswprintfStream memory array buf n)).slice 0 (chars.length + 1)
        = chars.map (fun c => c.val.toBitVec) ++ [0]
      ↔ ∀ c ∈ chars, c.val.toNat < 0x80 := by
  obtain ⟨c, decoded, same, terminated⟩ := wideResult_decoded beyond memory array positive n chars
  have most := decoded.most
  rw [← same, Memory.slice_add]
  constructor
  · intro unchanged
    obtain ⟨characters, _⟩ := append_inj unchanged (by simp)
    have reached : c.ws = 0 + chars.length := by
      by_contra before
      -- the terminator would stand in place of a character
      have inside : c.ws < chars.length := by omega
      have cell : c.array c.ws = (chars[c.ws]).val.toBitVec := by
        have read : (c.array.slice 0 chars.length)[c.ws]? = some (c.array c.ws) := by
          rw [getElem?_eq_getElem (by rw [Memory.length_slice]; exact inside),
            Memory.getElem_slice, Nat.zero_add]
        rw [characters, getElem?_map, getElem?_eq_getElem inside, Option.map_some,
          Option.some.injEq] at read
        exact read.symm
      rw [terminated] at cell
      exact nonzero chars[c.ws] (getElem_mem inside) (UInt32.toBitVec_inj.mp cell.symm)
    have plain := decoded.plain reached
    rw [characters, forall₂_map_left_iff, forall₂_same] at plain
    intro c member
    exact (plain c member).mp rfl
  · intro ascii
    have reached := decoded.complete ascii (by omega)
    have plain := eq_map_of_plainOnly (decoded.plain reached) ascii
    rw [plain, ← reached, Memory.slice_succ, terminated]
    rfl

/-- When the decoder of the wide output functions keeps to UTF-8: on the bytes of one
character, on a string with a terminator, and on what is written to an array of `__vswprintf`.
-/
theorem mb2wc_utf8_iff (memory : Memory UInt8)
    : (∀ (c : Char) (s : Nat),
        memory.slice s (wc2mb c.val.toBitVec).2.length = (wc2mb c.val.toBitVec).2
        → (mb2wc memory s = ⟨(wc2mb c.val.toBitVec).1, some c.val.toBitVec⟩
          ↔ 1 ≤ c.val.toNat ∧ c.val.toNat ≤ 0x7F))
      ∧ (∀ s n : Nat, memory (s + n) = 0 → (DecodesUtf8 memory s n ↔ NotMisread memory s))
      ∧ (∀ (beyond : Memory UInt8) (array : Memory (BitVec 32)) (buf n : Nat) (chars : List Char),
        0 < buf
        → (∀ c ∈ chars, c.val ≠ 0)
        → chars.length < n
        → ((wideResult beyond chars (vswprintfStream memory array buf n)).slice 0 (chars.length + 1)
            = chars.map (fun c => c.val.toBitVec) ++ [0]
          ↔ ∀ c ∈ chars, c.val.toNat < 0x80)) := by
  refine ⟨?_, ?_, ?_⟩
  · intro c s stored
    exact mb2wc_wc2mb_iff stored
  · intro s n terminated
    exact decodesUtf8_iff terminated
  · intro beyond array buf n chars positive nonzero fits
    exact wideResult_iff beyond memory array positive nonzero fits

/-- The letter A alone, as a string, and written to an array of two characters. -/
theorem mb2wc_utf8_letter
    : mb2wc (Memory.store (fun _ => 0) 0 [0x41]) 0 = ⟨1, some 0x41#32⟩
      ∧ DecodesUtf8 (Memory.store (fun _ => 0) 0 [0x41]) 0 1
      ∧ (wideResult (fun _ => 0) ['A'] (vswprintfStream (fun _ => 0) (fun _ => 0) 16 2)).slice 0 2
        = [0x41#32, 0#32] := by
  refine ⟨?_, ?_, ?_⟩
  · exact ((mb2wc_utf8_iff _).1 'A' 0 (by decide)).mpr (by decide)
  · exact ((mb2wc_utf8_iff _).2.1 0 1 (by decide)).mpr (.inl (by decide))
  · exact ((mb2wc_utf8_iff (fun _ => 0)).2.2 (fun _ => 0) (fun _ => 0) 16 2 ['A'] (by decide)
      (forall_mem_singleton.mpr (by decide)) (by decide)).mpr
      (forall_mem_singleton.mpr (by decide))

/-- The bytes of U+00E9 are decoded as U+0069. -/
theorem mb2wc_misreads
    : (wc2mb 0xE9#32).1 = 2
      ∧ mb2wc (Memory.store (fun _ => 0) 0 (wc2mb 0xE9#32).2) 0 = ⟨2, some 0x69#32⟩
      ∧ ¬ mb2wc (Memory.store (fun _ => 0) 0 (wc2mb 0xE9#32).2) 0
        = ⟨(wc2mb 0xE9#32).1, some 0xE9#32⟩ := by
  decide

end Nglibc.Stdio
