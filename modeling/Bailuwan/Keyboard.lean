/-
# The keyboard (`am/src/riscv/ysyxsoc/ioe/input.c`)

`__am_input_keybrd` puts the scan codes of a PS/2 keyboard together.  A key is a final byte with
the prefixes `0xE0` (extended) and `0xF0` (break) before it.  A read gives 0 if the keyboard has
nothing to say, and the call returns then, so the prefixes seen so far are static variables.
Wherever the empty reads fall, the events are those of the stream without them
(`events_eq_decode`).
-/
import Mathlib.Data.List.DropRight
import Mathlib.Tactic.SplitIfs

namespace Bailuwan

namespace Keyboard

/-! ## The keys (`am/include/amdev.h`) -/

/-- `AM_KEY_NONE` and the other keys; `AM_KEY_1` is `KEY_1` here. -/
inductive AmKey
  | NONE | ESCAPE | F1 | F2 | F3 | F4 | F5 | F6 | F7 | F8 | F9 | F10 | F11 | F12 | GRAVE
  | KEY_1 | KEY_2 | KEY_3 | KEY_4 | KEY_5 | KEY_6 | KEY_7 | KEY_8 | KEY_9 | KEY_0 | MINUS
  | EQUALS | BACKSPACE | TAB | LEFTBRACKET | RIGHTBRACKET | BACKSLASH | CAPSLOCK | SEMICOLON
  | APOSTROPHE | RETURN | LSHIFT | COMMA | PERIOD | SLASH | RSHIFT | LCTRL | LALT | SPACE | A
  | B | C | D | E | F | G | H | I | J | K | L | M | N | O | P | Q | R | S | T | U | V | W | X
  | Y | Z | APPLICATION | RALT | RCTRL | UP | DOWN | LEFT | RIGHT | INSERT | DELETE | HOME
  | END | PAGEUP | PAGEDOWN
  deriving DecidableEq, Repr

/-- The entries `NORMAL(name, code)` of `AM_KEY_TABLE`. -/
def normalKeys : List (AmKey × BitVec 8) := [
  (.ESCAPE, 0x76), (.F1, 0x5), (.F2, 0x6), (.F3, 0x4), (.F4, 0x0C), (.F5, 0x3), (.F6, 0x0B),
  (.F7, 0x83), (.F8, 0x0A), (.F9, 0x1), (.F10, 0x9), (.F11, 0x78), (.F12, 0x7), (.GRAVE, 0x0E),
  (.KEY_1, 0x16), (.KEY_2, 0x1E), (.KEY_3, 0x26), (.KEY_4, 0x25), (.KEY_5, 0x2E),
  (.KEY_6, 0x36), (.KEY_7, 0x3D), (.KEY_8, 0x3E), (.KEY_9, 0x46), (.KEY_0, 0x45),
  (.MINUS, 0x4E), (.EQUALS, 0x55), (.BACKSPACE, 0x66), (.TAB, 0x0D), (.LEFTBRACKET, 0x54),
  (.RIGHTBRACKET, 0x5B), (.BACKSLASH, 0x5D), (.CAPSLOCK, 0x58), (.SEMICOLON, 0x4C),
  (.APOSTROPHE, 0x52), (.RETURN, 0x5A), (.LSHIFT, 0x12), (.COMMA, 0x41), (.PERIOD, 0x49),
  (.SLASH, 0x4A), (.RSHIFT, 0x59), (.LCTRL, 0x14), (.LALT, 0x11), (.SPACE, 0x29), (.A, 0x1C),
  (.B, 0x32), (.C, 0x21), (.D, 0x23), (.E, 0x24), (.F, 0x2B), (.G, 0x34), (.H, 0x33),
  (.I, 0x43), (.J, 0x3B), (.K, 0x42), (.L, 0x4B), (.M, 0x3A), (.N, 0x31), (.O, 0x44),
  (.P, 0x4D), (.Q, 0x15), (.R, 0x2D), (.S, 0x1B), (.T, 0x2C), (.U, 0x3C), (.V, 0x2A),
  (.W, 0x1D), (.X, 0x22), (.Y, 0x35), (.Z, 0x1A)]

/-- The entries `EXT(name, code)` of `AM_KEY_TABLE`. -/
def extKeys : List (AmKey × BitVec 8) := [
  (.APPLICATION, 0x2F), (.RALT, 0x11), (.RCTRL, 0x14), (.UP, 0x75), (.DOWN, 0x72),
  (.LEFT, 0x6B), (.RIGHT, 0x74), (.INSERT, 0x70), (.DELETE, 0x71), (.HOME, 0x6C), (.END, 0x69),
  (.PAGEUP, 0x7D), (.PAGEDOWN, 0x7A)]

/-- A table with the initializers `[code] = name` in their order. -/
def keyTable (entries : List (AmKey × BitVec 8)) (code : BitVec 8) : AmKey :=
  (entries.reverse.find? fun e => e.2 == code).elim .NONE Prod.fst

/-- `keymap` -/
def keymap : BitVec 8 → AmKey := keyTable normalKeys

/-- `keymap_ext` -/
def keymapExt : BitVec 8 → AmKey := keyTable extKeys

/-- No two entries of a table have the same code. -/
theorem keymap_entry : (∀ e ∈ normalKeys, keymap e.2 = e.1) ∧
    ∀ e ∈ extKeys, keymapExt e.2 = e.1 := by decide

/-! ## `__am_input_keybrd` -/

/-- `AM_INPUT_KEYBRD_T` -/
structure Kbd where
  keycode : AmKey
  keydown : Bool
  deriving DecidableEq, Repr

/-- The static variables, and the number of reads of the device so far. -/
structure State where
  isExt : Bool := false
  isBreak : Bool := false
  pos : ℕ := 0
  deriving DecidableEq, Repr

/-- What a call returns, and the state after it. -/
structure Result where
  kbd : Kbd
  state : State
  deriving DecidableEq, Repr

/-- The loop of `__am_input_keybrd`; `reads` are the bytes `inb` gives one after the other.  None
where the fuel runs out. -/
def keybrd (reads : ℕ → BitVec 8) : ℕ → State → Option Result
  | 0, _ => none
  | fuel + 1, s =>
      let code := reads s.pos
      let s := { s with pos := s.pos + 1 }
      if code = 0 then some ⟨⟨.NONE, false⟩, s⟩
      else if code = 0xF0 then keybrd reads fuel { s with isBreak := true }
      else if code = 0xE0 then keybrd reads fuel { s with isExt := true }
      else some ⟨⟨if s.isExt then keymapExt code else keymap code, !s.isBreak⟩,
        { s with isExt := false, isBreak := false }⟩

/-- A byte that is not a prefix. -/
def isFinal (code : BitVec 8) : Bool := code != 0 && code != 0xF0 && code != 0xE0

/-- Some byte of the reads from `i` up to `j` is final. -/
def Took (reads : ℕ → BitVec 8) (i j : ℕ) : Prop := ∃ k, i ≤ k ∧ k < j ∧ isFinal (reads k) = true

/-- Calls one after the other, and the events of those which took a final byte. -/
inductive Calls (reads : ℕ → BitVec 8) : ℕ → State → List Kbd → Prop
  | none : Calls reads 0 {} []
  | event {n fuel : ℕ} {s : State} {events : List Kbd} {r : Result}
      (h : Calls reads n s events) (hr : keybrd reads fuel s = some r)
      (htook : Took reads s.pos r.state.pos) : Calls reads (n + 1) r.state (events ++ [r.kbd])
  | idle {n fuel : ℕ} {s : State} {events : List Kbd} {r : Result}
      (h : Calls reads n s events) (hr : keybrd reads fuel s = some r)
      (htook : ¬ Took reads s.pos r.state.pos) : Calls reads (n + 1) r.state events

/-! ## Decoding a stream -/

/-- The prefixes since the last final byte. -/
def prefixes (bytes : List (BitVec 8)) : List (BitVec 8) := bytes.rtakeWhile fun c => !isFinal c

/-- The event of a final byte after some prefixes. -/
def event (before : List (BitVec 8)) (code : BitVec 8) : Kbd where
  keycode := if 0xE0 ∈ before then keymapExt code else keymap code
  keydown := decide (0xF0 ∉ before)

/-- **The events of a stream**: one for each final byte, with the prefixes before it. -/
def decode (bytes : List (BitVec 8)) : List Kbd :=
  (List.range bytes.length).filterMap fun i => bytes[i]?.bind fun code =>
    if isFinal code then some (event (prefixes (bytes.take i)) code) else none

/-- The stream without the empty reads. -/
def delivered (reads : ℕ → BitVec 8) (n : ℕ) : List (BitVec 8) :=
  ((List.range n).map reads).filter fun c => c != 0

/-- The device gives the stream `bytes` in its first `N` reads, cut by empty reads, and nothing
after that. -/
structure Cuts (reads : ℕ → BitVec 8) (N : ℕ) (bytes : List (BitVec 8)) : Prop where
  bytes : delivered reads N = bytes
  rest : ∀ i, N ≤ i → reads i = 0

section Stream

variable {bytes : List (BitVec 8)} {code : BitVec 8} {reads : ℕ → BitVec 8} {n : ℕ}

/-- A final byte adds its event, and any other byte adds none. -/
theorem decode_concat (bytes : List (BitVec 8)) (code : BitVec 8) : decode (bytes ++ [code]) =
    decode bytes ++ if isFinal code then [event (prefixes bytes) code] else [] := by
  have hinit : ((List.range bytes.length).filterMap fun i => (bytes ++ [code])[i]?.bind fun c =>
      if isFinal c then some (event (prefixes ((bytes ++ [code]).take i)) c) else none) =
      decode bytes := by
    refine List.filterMap_congr fun i hi => ?_
    have hi' : i < bytes.length := List.mem_range.mp hi
    rw [List.getElem?_append_left hi', List.take_append_of_le_length hi'.le]
  rw [decode, List.length_append, List.length_singleton, List.range_succ, List.filterMap_append,
    hinit, List.filterMap_cons, List.filterMap_nil, List.getElem?_concat_length, Option.bind_some,
    List.take_left]
  split_ifs <;> rfl

/-- Every final byte gives an event. -/
theorem length_decode (bytes : List (BitVec 8)) : (decode bytes).length = bytes.countP isFinal := by
  induction bytes using List.reverseRecOn with
  | nil => rfl
  | append_singleton bytes code ih =>
      rw [decode_concat, List.length_append, ih, List.countP_append, List.countP_singleton]
      split_ifs <;> rfl

/-- A final byte ends a code. -/
theorem prefixes_final (h : isFinal code = true) : prefixes (bytes ++ [code]) = [] := by
  rw [prefixes, List.rtakeWhile_concat_neg]
  simpa using h

/-- Every other byte is a prefix. -/
theorem prefixes_prefixByte (h : isFinal code = false) :
    prefixes (bytes ++ [code]) = prefixes bytes ++ [code] := by
  rw [prefixes, List.rtakeWhile_concat_pos]
  · rfl
  · simpa using h

/-- A read that returns a byte takes it. -/
theorem delivered_succ (reads : ℕ → BitVec 8) (n : ℕ) : delivered reads (n + 1) =
    delivered reads n ++ if reads n = 0 then [] else [reads n] := by
  rw [delivered, List.range_succ, List.map_append, List.filter_append, List.map_singleton,
    List.filter_singleton]
  by_cases h : reads n = 0
  · rw [if_pos h, h]
    rfl
  · rw [if_neg h, bne_iff_ne.mpr h]
    rfl

/-! ## One read -/

variable {i j fuel : ℕ} {s : State} {r : Result} {events : List Kbd}

/-- The state in which the prefixes of the stream so far are known. -/
def stateAt (reads : ℕ → BitVec 8) (i : ℕ) : State where
  isExt := decide (0xE0 ∈ prefixes (delivered reads i))
  isBreak := decide (0xF0 ∈ prefixes (delivered reads i))
  pos := i

/-- A read of an empty buffer takes nothing. -/
theorem delivered_of_zero (h : reads i = 0) : delivered reads (i + 1) = delivered reads i := by
  rw [delivered_succ, if_pos h, List.append_nil]

/-- A read of a byte takes it. -/
theorem delivered_of_ne_zero (h : reads i ≠ 0) :
    delivered reads (i + 1) = delivered reads i ++ [reads i] := by
  rw [delivered_succ, if_neg h]

/-- A prefix makes no event. -/
theorem decode_prefixByte (hne : reads i ≠ 0) (h : isFinal (reads i) = false) :
    decode (delivered reads (i + 1)) = decode (delivered reads i) := by
  rw [delivered_of_ne_zero hne, decode_concat, h]
  exact List.append_nil _

/-- A read of an empty buffer changes the position only. -/
theorem stateAt_zero (h : reads i = 0) :
    stateAt reads (i + 1) = { stateAt reads i with pos := i + 1 } := by
  rw [stateAt, delivered_of_zero h]
  rfl

/-- A prefix is added to the prefixes. -/
theorem stateAt_prefixByte (hne : reads i ≠ 0) (h : isFinal (reads i) = false) :
    stateAt reads (i + 1) =
      { isExt := (stateAt reads i).isExt || decide (0xE0 = reads i)
        isBreak := (stateAt reads i).isBreak || decide (0xF0 = reads i)
        pos := i + 1 } := by
  rw [stateAt, delivered_of_ne_zero hne, prefixes_prefixByte h]
  simp only [List.mem_append, List.mem_singleton, Bool.decide_or]
  rfl

/-- A final byte leaves nothing behind. -/
theorem stateAt_final (hne : reads i ≠ 0) (h : isFinal (reads i) = true) :
    stateAt reads (i + 1) = { pos := i + 1 } := by
  rw [stateAt, delivered_of_ne_zero hne, prefixes_final h]
  rfl

/-- A byte that is not final leaves the call going on. -/
theorem took_succ (h : isFinal (reads i) = false) : Took reads i j ↔ Took reads (i + 1) j := by
  constructor
  · rintro ⟨k, hik, hkj, hk⟩
    refine ⟨k, Nat.lt_of_le_of_ne hik ?_, hkj, hk⟩
    rintro rfl
    exact absurd (h.symm.trans hk) Bool.false_ne_true
  · rintro ⟨k, hik, hkj, hk⟩
    exact ⟨k, Nat.le_of_succ_le hik, hkj, hk⟩

/-- A call reads at least once. -/
theorem not_took_self (reads : ℕ → BitVec 8) (i : ℕ) : ¬ Took reads i i := by
  rintro ⟨k, hik, hki, -⟩
  omega

/-- 0 is not a final byte. -/
theorem not_final_of_zero (h : reads i = 0) : isFinal (reads i) = false := by
  rw [h]
  rfl

/-- A final byte is not 0. -/
theorem ne_zero_of_final (h : isFinal (reads i) = true) : reads i ≠ 0 := by
  intro hzero
  exact absurd ((not_final_of_zero hzero).symm.trans h) Bool.false_ne_true

/-! ## One call -/

/-- One turn of the loop. -/
theorem keybrd_succ (reads : ℕ → BitVec 8) (fuel i : ℕ) :
    keybrd reads (fuel + 1) (stateAt reads i) =
      if reads i = 0 then some ⟨⟨.NONE, false⟩, { stateAt reads i with pos := i + 1 }⟩
      else if reads i = 0xF0 then
        keybrd reads fuel { stateAt reads i with isBreak := true, pos := i + 1 }
      else if reads i = 0xE0 then
        keybrd reads fuel { stateAt reads i with isExt := true, pos := i + 1 }
      else some ⟨event (prefixes (delivered reads i)) (reads i), { pos := i + 1 }⟩ := by
  simp only [keybrd, stateAt, event, decide_eq_true_eq, decide_not]

/-- An empty read ends the call. -/
theorem keybrd_zero (h : reads i = 0) : keybrd reads (fuel + 1) (stateAt reads i) =
    some ⟨⟨.NONE, false⟩, stateAt reads (i + 1)⟩ := by
  rw [keybrd_succ, if_pos h, stateAt_zero h]

/-- A prefix is kept in the state. -/
theorem keybrd_prefixByte (hne : reads i ≠ 0) (h : isFinal (reads i) = false) :
    keybrd reads (fuel + 1) (stateAt reads i) = keybrd reads fuel (stateAt reads (i + 1)) := by
  have hcode : reads i = 0xF0 ∨ reads i = 0xE0 := by
    rw [isFinal, bne_iff_ne.mpr hne, Bool.true_and, Bool.and_eq_false_iff] at h
    exact h.imp (fun h => by simpa using h) (fun h => by simpa using h)
  rw [keybrd_succ, if_neg hne, stateAt_prefixByte hne h]
  rcases hcode with hcode | hcode
  · rw [if_pos hcode, hcode, show decide ((0xE0 : BitVec 8) = 0xF0) = false from rfl,
      show decide ((0xF0 : BitVec 8) = 0xF0) = true from rfl, Bool.or_false, Bool.or_true]
  · have hbreak : reads i ≠ 0xF0 := by
      rw [hcode]
      decide
    rw [if_neg hbreak, if_pos hcode, hcode, show decide ((0xE0 : BitVec 8) = 0xE0) = true from rfl,
      show decide ((0xF0 : BitVec 8) = 0xE0) = false from rfl, Bool.or_false, Bool.or_true]

/-- A final byte ends the call, and gives its event. -/
theorem keybrd_final (h : isFinal (reads i) = true) : keybrd reads (fuel + 1) (stateAt reads i) =
    some ⟨event (prefixes (delivered reads i)) (reads i), stateAt reads (i + 1)⟩ := by
  have hcode : reads i ≠ 0 ∧ reads i ≠ 0xF0 ∧ reads i ≠ 0xE0 := by
    simpa [isFinal, and_assoc] using h
  rw [keybrd_succ, if_neg hcode.1, if_neg hcode.2.1, if_neg hcode.2.2, stateAt_final hcode.1 h]

/-- **A call goes on where the stream is**: the state knows the prefixes again, and the event is
the next one of the stream if the call took a final byte. -/
structure Polled (reads : ℕ → BitVec 8) (i : ℕ) (r : Result) : Prop where
  lt : i < r.state.pos
  state : r.state = stateAt reads r.state.pos
  event : Took reads i r.state.pos →
    decode (delivered reads r.state.pos) = decode (delivered reads i) ++ [r.kbd]
  idle : ¬ Took reads i r.state.pos →
    decode (delivered reads r.state.pos) = decode (delivered reads i)

/-- A call that reads nothing. -/
theorem Polled.of_zero (h : reads i = 0) (kbd : Kbd) :
    Polled reads i ⟨kbd, stateAt reads (i + 1)⟩ := by
  constructor
  · exact Nat.lt_succ_self i
  · rfl
  · intro htook
    exact absurd ((took_succ (not_final_of_zero h)).mp htook) (not_took_self reads (i + 1))
  · intro _
    exact congrArg decode (delivered_of_zero h)

/-- A call that begins with a prefix. -/
theorem Polled.of_prefixByte (hne : reads i ≠ 0) (h : isFinal (reads i) = false)
    (hr : Polled reads (i + 1) r) : Polled reads i r := by
  have hdecode := decode_prefixByte hne h
  constructor
  · exact Nat.lt_of_succ_lt hr.lt
  · exact hr.state
  · intro htook
    rw [hr.event ((took_succ h).mp htook), hdecode]
  · intro htook
    rw [hr.idle (mt (took_succ h).mpr htook), hdecode]

/-- A call that begins with a final byte. -/
theorem Polled.of_final (h : isFinal (reads i) = true) : Polled reads i
    ⟨Keyboard.event (prefixes (delivered reads i)) (reads i), stateAt reads (i + 1)⟩ := by
  constructor
  · exact Nat.lt_succ_self i
  · rfl
  · intro _
    show decode (delivered reads (i + 1)) = _
    rw [delivered_of_ne_zero (ne_zero_of_final h), decode_concat, if_pos h]
  · intro htook
    exact absurd ⟨i, Nat.le_refl i, Nat.lt_succ_self i, h⟩ htook

/-- A call that returns has read up to a final byte or an empty buffer. -/
theorem polled_of_keybrd (h : keybrd reads fuel (stateAt reads i) = some r) :
    Polled reads i r := by
  induction fuel generalizing i with
  | zero => cases h
  | succ fuel ih =>
      by_cases hzero : reads i = 0
      · rw [keybrd_zero hzero, Option.some_inj] at h
        rw [← h]
        exact .of_zero hzero _
      · by_cases hfinal : isFinal (reads i) = true
        · rw [keybrd_final hfinal, Option.some_inj] at h
          rw [← h]
          exact .of_final hfinal
        · have hlead : isFinal (reads i) = false := Bool.eq_false_iff.mpr hfinal
          rw [keybrd_prefixByte hzero hlead] at h
          exact (ih h).of_prefixByte hzero hlead

/-- A call returns when a read is empty or gives a final byte. -/
theorem keybrd_returns {k : ℕ} (hend : reads (i + k) = 0 ∨ isFinal (reads (i + k)) = true) :
    ∃ r, keybrd reads (k + 1) (stateAt reads i) = some r := by
  induction k generalizing i with
  | zero =>
      rcases hend with hzero | hfinal
      · exact ⟨_, keybrd_zero hzero⟩
      · exact ⟨_, keybrd_final hfinal⟩
  | succ k ih =>
      by_cases hzero : reads i = 0
      · exact ⟨_, keybrd_zero hzero⟩
      · by_cases hfinal : isFinal (reads i) = true
        · exact ⟨_, keybrd_final hfinal⟩
        · rw [keybrd_prefixByte hzero (Bool.eq_false_iff.mpr hfinal)]
          refine ih ?_
          rwa [Nat.add_right_comm, Nat.add_assoc]

/-! ## All calls -/

/-- **The events are those of the stream so far**, after any calls. -/
theorem Calls.decodes (h : Calls reads n s events) :
    s = stateAt reads s.pos ∧ events = decode (delivered reads s.pos) := by
  induction h with
  | none => exact ⟨rfl, rfl⟩
  | event _ hr htook ih =>
      rw [ih.1] at hr
      have hpolled := polled_of_keybrd hr
      exact ⟨hpolled.state, by rw [ih.2, hpolled.event htook]⟩
  | idle _ hr htook ih =>
      rw [ih.1] at hr
      have hpolled := polled_of_keybrd hr
      exact ⟨hpolled.state, by rw [ih.2, hpolled.idle htook]⟩

/-- Every call reads a byte at least. -/
theorem Calls.le_pos (h : Calls reads n s events) : n ≤ s.pos := by
  induction h with
  | none => exact Nat.le_refl 0
  | event h hr _ ih | idle h hr _ ih =>
      rw [h.decodes.1] at hr
      exact Nat.lt_of_le_of_lt ih (polled_of_keybrd hr).lt

/-- The next call, when it returns. -/
theorem Calls.next (h : Calls reads n s events) (hr : keybrd reads fuel s = some r) :
    ∃ events, Calls reads (n + 1) r.state events := by
  by_cases htook : Took reads s.pos r.state.pos
  · exact ⟨_, h.event hr htook⟩
  · exact ⟨_, h.idle hr htook⟩

/-- Any number of calls return on a stream that ends. -/
theorem Calls.exists {N : ℕ} (hend : ∀ i, N ≤ i → reads i = 0) (n : ℕ) :
    ∃ s events, Calls reads n s events := by
  induction n with
  | zero => exact ⟨_, _, .none⟩
  | succ n ih =>
      obtain ⟨s, events, h⟩ := ih
      obtain ⟨r, hr⟩ := keybrd_returns (i := s.pos) (k := N)
        (.inl (hend (s.pos + N) (Nat.le_add_left N s.pos)))
      rw [← h.decodes.1] at hr
      exact ⟨_, h.next hr⟩

/-- The empty reads behind the end of a stream. -/
theorem delivered_of_end {N : ℕ} (hend : ∀ i, N ≤ i → reads i = 0) (hN : N ≤ n) :
    delivered reads n = delivered reads N := by
  induction n, hN using Nat.le_induction with
  | base => rfl
  | succ n hN ih => rw [delivered_of_zero (hend n hN), ih]

/-- **Decoding does not depend on polling.**  After any calls the events are those of the bytes
that have been delivered, without the empty reads; a call returns if the keyboard has nothing to
say at some time, or a final byte; and however a stream is cut, enough calls take all of its
events. -/
theorem events_eq_decode (reads : ℕ → BitVec 8) :
    (∀ n s events, Calls reads n s events → events = decode (delivered reads s.pos)) ∧
    (∀ n s events, Calls reads n s events → ∀ i, s.pos ≤ i →
      reads i = 0 ∨ isFinal (reads i) = true → ∃ fuel r, keybrd reads fuel s = some r) ∧
    (∀ N bytes, Cuts reads N bytes → ∀ n, N ≤ n → (∃ s events, Calls reads n s events) ∧
      ∀ s events, Calls reads n s events → events = decode bytes) := by
  refine ⟨fun n s events h => h.decodes.2, ?_, ?_⟩
  · intro n s events h i hi hend
    obtain ⟨k, rfl⟩ := Nat.exists_eq_add_of_le hi
    obtain ⟨r, hr⟩ := keybrd_returns hend
    rw [← h.decodes.1] at hr
    exact ⟨_, r, hr⟩
  · intro N bytes hcut n hn
    refine ⟨Calls.exists hcut.rest n, ?_⟩
    intro s events h
    rw [h.decodes.2, delivered_of_end hcut.rest (hn.trans h.le_pos), hcut.bytes]

/-- The up arrow is released: `0xE0`, `0xF0` and `0x75` with empty reads between them. -/
def upReleased : ℕ → BitVec 8 := fun i => [0xE0, 0, 0xF0, 0, 0x75].getD i 0

/-- The first five reads give the three bytes, and every later one is of an empty buffer. -/
theorem cuts_upReleased : Cuts upReleased 5 [0xE0, 0xF0, 0x75] := by
  refine ⟨by decide, ?_⟩
  intro i hi
  rw [upReleased, List.getD_eq_getElem?_getD, List.getElem?_eq_none hi]
  rfl

/-- The event of the key is read by one call. -/
theorem upReleased_event : ∃ s, Calls upReleased 5 s [⟨.UP, false⟩] := by
  have h := (events_eq_decode upReleased).2.2 5 _ cuts_upReleased 5 (Nat.le_refl 5)
  obtain ⟨s, events, hcalls⟩ := h.1
  have hevents : events = [⟨.UP, false⟩] := (h.2 s events hcalls).trans (by decide)
  exact ⟨s, hevents ▸ hcalls⟩

end Stream

end Keyboard

end Bailuwan
