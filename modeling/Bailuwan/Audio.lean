/-
# The audio ring (`nemu/src/device/audio.c`, `platform/nemu/ioe/audio.c`)

`__am_audio_play` waits until the ring has room for its samples, writes them one by one and
publishes them with its last store; the callback of the host takes samples in between.  The
room it waits for may be all that is left, and then the pointers meet and the ring looks
empty: nothing is lost in a run if and only if every store of `wptr` leaves a byte
(`lossless_iff`).
-/
import Mathlib.Algebra.GroupWithZero.Nat
import Bailuwan.RingBuffer
import Bailuwan.Synchronous

namespace Bailuwan

open Synchronous RingBuffer

namespace Audio

/-! ## The device -/

/-- A size of the stream buffer, `CONFIG_SB_SIZE`, that an `int` can hold. -/
structure SbSize where
  value : BitVec 32
  pos : 0 < value.toNat
  lt : value.toNat < 2 ^ 31

/-- The default of `Kconfig`. -/
def SB_SIZE : SbSize := ⟨0x10000, by decide, by decide⟩

/-- The buffer of a call, `ctl->buf`, of 1 to `sbuf_size` bytes. -/
structure Samples (size : SbSize) where
  bytes : List (BitVec 8)
  pos : 0 < bytes.length
  le : bytes.length ≤ size.value.toNat

variable {size : SbSize}

/-- The length that is written to the register. -/
def Samples.len (buf : Samples size) : BitVec 32 := BitVec.ofNat 32 buf.bytes.length

/-- Where the program is in `__am_audio_play`: outside of it, polling `reg_count`, about to
load `wptr`, or about to write byte `i`. -/
inductive Guest (size : SbSize)
  | idle
  | poll (buf : Samples size)
  | load (buf : Samples size)
  | copy (buf : Samples size) (wptr : BitVec 32) (i : ℕ)

/-- The ring, its two pointers and the program. -/
structure State (size : SbSize) where
  sbuf : ℕ → BitVec 8
  wptr : BitVec 32
  rptr : BitVec 32
  guest : Guest size

namespace State

variable (s : State size) (len : BitVec 32)

/-- `reg_count`, as `audio_io_handler` computes it for a load. -/
def count : BitVec 32 := (s.wptr + size.value - s.rptr) % size.value

/-! ### `sdl_audio_callback` -/

/-- The number of bytes in the ring that wait to be played. -/
def available : BitVec 32 := (s.wptr + size.value - s.rptr) % size.value

/-- What a callback copies: what it is asked for, or what is there. -/
def toCopy : BitVec 32 := if len ≤ s.available then len else s.available

/-- What is copied to the stream. -/
def copied : List (BitVec 8) :=
  let first_chunk := size.value - s.rptr
  if s.toCopy len ≤ first_chunk then slice s.sbuf s.rptr.toNat (s.toCopy len).toNat
  else slice s.sbuf s.rptr.toNat first_chunk.toNat ++
    slice s.sbuf 0 (s.toCopy len - first_chunk).toNat

/-- The stream, padded with zeros. -/
def stream : List (BitVec 8) :=
  s.copied len ++ List.replicate (len - s.toCopy len).toNat 0

/-- The callback takes the bytes it copies off the ring. -/
def callback : State size := { s with rptr := (s.rptr + s.toCopy len) % size.value }

/-! ### `__am_audio_play` -/

/-- The offset in the buffer of the store of byte `i`. -/
def address (size : SbSize) (wptr len : BitVec 32) (i : ℕ) : BitVec 32 :=
  let first_chunk := size.value - wptr
  if len ≤ first_chunk then wptr + BitVec.ofNat 32 i
  else if BitVec.ofNat 32 i < first_chunk then wptr + BitVec.ofNat 32 i
  else BitVec.ofNat 32 i - first_chunk

/-- One access of the program. -/
def guestNext : State size :=
  match s.guest with
  | .idle => s
  | .poll buf =>
      let freespace := size.value - s.count
      if buf.len ≤ freespace then { s with guest := .load buf } else s
  | .load buf => { s with guest := .copy buf s.wptr 0 }
  | .copy buf wptr i =>
      match buf.bytes[i]? with
      | some x =>
          { s with
            sbuf := Function.update s.sbuf (address size wptr buf.len i).toNat x
            guest := .copy buf wptr (i + 1) }
      | none => { s with wptr := (wptr + buf.len) % size.value, guest := .idle }

end State

/-- What happens next: a call, an access of the program, or a callback, between any two. -/
inductive Event (size : SbSize)
  | play (buf : Samples size)
  | guest
  | callback (len : BitVec 32)

/-- The state after an event. -/
def State.next (s : State size) : Event size → State size
  | .play buf =>
      match s.guest with
      | .idle => { s with guest := .poll buf }
      | _ => s
  | .guest => s.guestNext
  | .callback len => s.callback len

/-- `init_audio`: the registers are 0. -/
structure State.IsInit (s : State size) : Prop where
  wptr : s.wptr = 0
  rptr : s.rptr = 0
  guest : s.guest = .idle

/-- The guest and the device as a synchronous machine. -/
def machine (size : SbSize) : Machine (State size) (Event size) where
  init := State.IsInit
  next := State.next

/-! ## The statement -/

/-- The buffer that is published by the store of `wptr`. -/
def publishes (s : State size) : Event size → Option (Samples size)
  | .guest =>
      match s.guest with
      | .copy buf _ i => if i < buf.bytes.length then none else some buf
      | _ => none
  | _ => none

/-- The bytes that a callback copies, without the padding. -/
def consumes (s : State size) : Event size → List (BitVec 8)
  | .callback len => (s.stream len).take (s.toCopy len).toNat
  | _ => []

/-- What a series of callbacks copies. -/
def drains (s : State size) : List (BitVec 32) → List (BitVec 8)
  | [] => []
  | len :: lens => consumes s (.callback len) ++ drains (s.callback len) lens

section Statement

variable (r : (machine size).Run)

/-- The bytes played and the bytes copied to the streams before `t`. -/
def played : ℕ → List (BitVec 8) :=
  r.log fun s e => (publishes s e).elim [] Samples.bytes

/-- What the callbacks have copied before a cycle. -/
def delivered : ℕ → List (BitVec 8) := r.log consumes

/-- **The statement about the ring** in `t`: what has been copied is a prefix of what has been
played, `reg_count` is at most what has not been copied, and outside of a call enough
callbacks would copy all of it. -/
structure Lossless (t : ℕ) : Prop where
  fifo : delivered r t <+: played r t
  count : (r.st t).count.toNat ≤ (played r t).length - (delivered r t).length
  drained : (r.st t).guest = .idle → ∀ lens : List (BitVec 32),
    (played r t).length - (delivered r t).length ≤ (lens.map BitVec.toNat).sum →
    delivered r t ++ drains (r.st t) lens = played r t

end Statement

/-! ## What the ring holds -/

/-- The samples the program has found room for. -/
def Guest.writes : Guest size → Option (Samples size)
  | .load buf | .copy buf _ _ => some buf
  | _ => none

/-- The bytes it has written and not published. -/
def Guest.staged : Guest size → List (BitVec 8)
  | .copy buf _ i => buf.bytes.take i
  | _ => []

/-- The ring holds the queue `q` and what the program has written behind it, and there is
room for the rest. -/
structure Tracks (s : State size) (q : List (BitVec 8)) : Prop where
  holds : Holds s.sbuf size.value.toNat s.rptr.toNat s.wptr.toNat q s.guest.staged
  fits : ∀ buf, s.guest.writes = some buf → q.length + buf.bytes.length ≤ size.value.toNat
  copies : ∀ buf wptr i, s.guest = .copy buf wptr i → wptr = s.wptr ∧ i ≤ buf.bytes.length

variable {s : State size} {q : List (BitVec 8)} {len : BitVec 32} {buf : Samples size}

/-- An empty ring holds nothing. -/
theorem Tracks.of_init (h : s.IsInit) : Tracks s [] := by
  obtain ⟨sbuf, wptr, rptr, guest⟩ := s
  obtain ⟨rfl, rfl, rfl⟩ := h
  refine ⟨Holds.empty sbuf size.pos, fun buf hw => ?_, fun buf wptr i hc => ?_⟩
  · cases hw
  · cases hc

/-- The length register is wide enough for a buffer. -/
theorem len_toNat (buf : Samples size) : buf.len.toNat = buf.bytes.length := by
  have hle := buf.le
  have hlt := size.lt
  rw [Samples.len, BitVec.toNat_ofNat, Nat.mod_eq_of_lt (by omega)]

/-- `reg_count` is the length of the queue. -/
theorem Tracks.count_toNat (h : Tracks s q) : s.count.toNat = q.length := by
  have hused := h.holds.used
  have hr := h.holds.rptr_lt
  have hw := h.holds.wptr_lt
  have hlt := size.lt
  have hdiff : (s.wptr + size.value - s.rptr).toNat =
      s.wptr.toNat + size.value.toNat - s.rptr.toNat := by
    rw [BitVec.toNat_sub, BitVec.toNat_add]
    omega
  rw [State.count, BitVec.toNat_umod, hdiff, hused]

/-! ### A callback -/

/-- A callback copies what it is asked for, or all there is. -/
theorem Tracks.toCopy_toNat (h : Tracks s q) (len : BitVec 32) :
    (s.toCopy len).toNat = min len.toNat q.length := by
  have hcount : s.available.toNat = q.length := h.count_toNat
  unfold State.toCopy
  split_ifs with hle <;> rw [BitVec.le_def, hcount] at hle
  · rw [Nat.min_eq_left hle]
  · rw [hcount, Nat.min_eq_right (by omega)]

/-- The two pieces are the oldest bytes of the queue. -/
theorem Tracks.copied_eq (h : Tracks s q) : s.copied len = q.take (s.toCopy len).toNat := by
  have hcopy := h.toCopy_toNat len
  have hr := h.holds.rptr_lt
  have hleft := h.holds.left
  have hlt := size.lt
  have hfirst : (size.value - s.rptr).toNat = size.value.toNat - s.rptr.toNat := by
    rw [BitVec.toNat_sub]
    omega
  rw [← h.holds.read (by omega), State.copied]
  simp only [hfirst]
  split_ifs with hle <;> rw [BitVec.le_def, hfirst] at hle
  · rw [window_eq_slice (by omega)]
  · have hrest : (s.toCopy len - (size.value - s.rptr)).toNat =
        (s.toCopy len).toNat - (size.value.toNat - s.rptr.toNat) := by
      rw [BitVec.toNat_sub, hfirst]
      omega
    rw [window_eq_slices (by omega) (by omega) (by omega), hrest]

/-- What it copies is the beginning of the stream. -/
theorem Tracks.consumes_eq (h : Tracks s q) :
    consumes s (.callback len) = q.take (min len.toNat q.length) := by
  have hcopy := h.toCopy_toNat len
  rw [consumes, State.stream, h.copied_eq, hcopy,
    List.take_append_of_le_length (by rw [List.length_take]; omega), List.take_take, Nat.min_self]

/-- It leaves the rest of the stream. -/
theorem Tracks.callback (h : Tracks s q) :
    Tracks (s.callback len) (q.drop (min len.toNat q.length)) := by
  have hcopy := h.toCopy_toNat len
  have hr := h.holds.rptr_lt
  have hleft := h.holds.left
  have hlt := size.lt
  have hrptr : (s.callback len).rptr.toNat =
      (s.rptr.toNat + min len.toNat q.length) % size.value.toNat := by
    have hsum : (s.rptr.toNat + min len.toNat q.length) % 2 ^ 32 =
        s.rptr.toNat + min len.toNat q.length := Nat.mod_eq_of_lt (by omega)
    rw [State.callback, BitVec.toNat_umod, BitVec.toNat_add, hcopy, hsum]
  refine ⟨?_, fun buf hw => ?_, h.copies⟩
  · rw [hrptr]
    exact h.holds.take (Nat.min_le_right ..)
  · have hfits := h.fits buf hw
    rw [List.length_drop]
    omega

/-! ### An access of the program -/

/-- The store of byte `i` goes to its cell behind the queue. -/
theorem address_toNat {wptr : BitVec 32} {i : ℕ} (hw : wptr.toNat < size.value.toNat)
    (hi : i < buf.bytes.length) : (State.address size wptr buf.len i).toNat =
      (wptr.toNat + i) % size.value.toNat := by
  have hlen := len_toNat buf
  have hle := buf.le
  have hlt := size.lt
  have hfirst : (size.value - wptr).toNat = size.value.toNat - wptr.toNat := by
    rw [BitVec.toNat_sub]
    omega
  have hi' : (BitVec.ofNat 32 i).toNat = i := by
    rw [BitVec.toNat_ofNat, Nat.mod_eq_of_lt (by omega)]
  have hadd : (wptr + BitVec.ofNat 32 i).toNat = wptr.toNat + i := by
    rw [BitVec.toNat_add, hi', Nat.mod_eq_of_lt (by omega)]
  simp only [State.address, BitVec.le_def, BitVec.lt_def, hlen, hfirst, hi']
  split_ifs with h1 h2
  · rw [hadd, Nat.mod_eq_of_lt (by omega)]
  · rw [hadd, Nat.mod_eq_of_lt (by omega)]
  · have hwrap : (wptr.toNat + i) % size.value.toNat = wptr.toNat + i - size.value.toNat := by
      rw [Nat.mod_eq_sub_mod (by omega), Nat.mod_eq_of_lt (by omega)]
    rw [hwrap, BitVec.toNat_sub, hfirst, hi']
    omega

/-- An access that publishes nothing. -/
theorem Tracks.guest (h : Tracks s q) (hp : publishes s .guest = none) :
    Tracks s.guestNext q := by
  obtain ⟨sbuf, wptr, rptr, guest⟩ := s
  have hw := h.holds.wptr_lt
  cases guest with
  | idle => exact h
  | poll buf =>
      have hcount := h.count_toNat
      have hlt := size.lt
      have hleft := h.holds.left
      simp only [State.guestNext]
      split_ifs with hle
      · refine ⟨h.holds, fun buf' hb => ?_, fun buf' wptr' i hc => by cases hc⟩
        -- there is room for the samples that have been waited with
        obtain rfl : buf = buf' := Option.some_inj.mp hb
        rw [BitVec.le_def, len_toNat, BitVec.toNat_sub, hcount] at hle
        omega
      · exact h
  | load buf =>
      refine ⟨h.holds, h.fits, fun buf' wptr' i hc => ?_⟩
      cases hc
      exact ⟨rfl, Nat.zero_le _⟩
  | copy buf wptr' i =>
      obtain ⟨rfl, hle⟩ := h.copies buf wptr' i rfl
      have hfits := h.fits buf rfl
      simp only [publishes, ite_eq_left_iff, reduceCtorEq, imp_false, not_not] at hp
      have hget : buf.bytes[i]? = some buf.bytes[i] := List.getElem?_eq_getElem hp
      have hstaged : (buf.bytes.take i).length = i := List.length_take_of_le hle
      have hstage := h.holds.stage (x := buf.bytes[i]) (by
        show q.length + (buf.bytes.take i).length < _
        omega)
      simp only [State.guestNext, hget]
      refine ⟨?_, h.fits, fun buf' w j hc => ?_⟩
      · rw [address_toNat hw hp]
        have htake : buf.bytes.take (i + 1) = buf.bytes.take i ++ [buf.bytes[i]] :=
          (List.take_append_getElem hp).symm
        simp only [Guest.staged, hstaged, htake] at hstage ⊢
        exact hstage
      · cases hc
        exact ⟨rfl, hp⟩

/-- The last store of a call: the program is done, and `wptr` is behind what it has written. -/
theorem Tracks.guest_publishes (h : Tracks s q) (hp : publishes s .guest = some buf) :
    Holds s.sbuf size.value.toNat s.rptr.toNat s.wptr.toNat q buf.bytes ∧
      s.guestNext = { s with wptr := s.guestNext.wptr, guest := .idle } ∧
      s.guestNext.wptr.toNat = (s.wptr.toNat + buf.bytes.length) % size.value.toNat := by
  obtain ⟨sbuf, wptr, rptr, guest⟩ := s
  have hw : wptr.toNat < size.value.toNat := h.holds.wptr_lt
  cases guest with
  | idle | poll | load => cases hp
  | copy buf' wptr' i =>
      obtain ⟨rfl, hle⟩ := h.copies buf' wptr' i rfl
      simp only [publishes, Option.ite_none_left_eq_some, Option.some_inj] at hp
      obtain ⟨hi, rfl⟩ := hp
      have hnone : buf'.bytes[i]? = none := List.getElem?_eq_none (by omega)
      have hlt := size.lt
      have hbuf := buf'.le
      refine ⟨?_, ?_, ?_⟩
      · have hholds := h.holds
        rwa [Guest.staged, List.take_of_length_le (by omega)] at hholds
      · simp only [State.guestNext, hnone]
      · have hsum : (wptr'.toNat + buf'.bytes.length) % 2 ^ 32 = wptr'.toNat + buf'.bytes.length :=
          Nat.mod_eq_of_lt (by omega)
        simp only [State.guestNext, hnone]
        rw [BitVec.toNat_umod, BitVec.toNat_add, len_toNat, hsum]

/-- A publication that fits appends the buffer. -/
theorem Tracks.publish (h : Tracks s q) (hp : publishes s .guest = some buf)
    (hroom : q.length + buf.bytes.length < size.value.toNat) :
    Tracks s.guestNext (q ++ buf.bytes) := by
  obtain ⟨hholds, hnext, hwptr⟩ := h.guest_publishes hp
  have hpub := hholds.publish hroom
  rw [← hwptr] at hpub
  rw [hnext]
  refine ⟨hpub, fun buf hw => ?_, fun buf w i hc => ?_⟩
  · cases hw
  · cases hc

/-- A call begins by polling. -/
theorem Tracks.play (h : Tracks s q) : Tracks (s.next (.play buf)) q := by
  obtain ⟨sbuf, wptr, rptr, guest⟩ := s
  cases guest with
  | idle =>
      refine ⟨h.holds, fun buf' hw => ?_, fun buf' w i hc => ?_⟩
      · cases hw
      · cases hc
  | poll | load | copy => exact h

/-- Enough callbacks copy the whole queue. -/
theorem Tracks.drains_eq (h : Tracks s q) {lens : List (BitVec 32)}
    (hsum : q.length ≤ (lens.map BitVec.toNat).sum) : drains s lens = q := by
  induction lens generalizing s q with
  | nil => exact (List.length_eq_zero_iff.mp (Nat.le_zero.mp hsum)).symm
  | cons len lens ih =>
      rw [List.map_cons, List.sum_cons] at hsum
      rw [drains, h.consumes_eq, ih h.callback (by rw [List.length_drop]; omega),
        List.take_append_drop]

/-- After a store that leaves no byte the ring is taken for empty. -/
theorem Tracks.publish_full (h : Tracks s q) (hp : publishes s .guest = some buf)
    (hfull : q.length + buf.bytes.length = size.value.toNat) : Tracks s.guestNext [] := by
  obtain ⟨hholds, hnext, hwptr⟩ := h.guest_publishes hp
  rw [hholds.full hfull] at hwptr
  rw [hnext]
  refine ⟨⟨rfl, size.pos, Nat.zero_le _, hholds.rptr_lt, ?_⟩, fun buf hw => ?_,
    fun buf w i hc => ?_⟩
  · rw [List.length_nil, Nat.add_zero, Nat.mod_eq_of_lt hholds.rptr_lt]
    exact hwptr
  · cases hw
  · cases hc

/-! ## Runs -/

section Runs

variable {r : (machine size).Run} {t : ℕ}

/-- The queue is what has been played and not copied. -/
structure Kept (r : (machine size).Run) (t : ℕ) (q : List (BitVec 8)) : Prop where
  tracks : Tracks (r.st t) q
  history : played r t = delivered r t ++ q

theorem st_succ (r : (machine size).Run) (t : ℕ) :
    r.st (t + 1) = (r.st t).next (r.inp t) := r.step t

/-- What has been played grows by the buffers that are published. -/
theorem played_succ (r : (machine size).Run) (t : ℕ) : played r (t + 1) =
    played r t ++ (publishes (r.st t) (r.inp t)).elim [] Samples.bytes := r.log_succ ..

/-- What has been delivered grows by what the callbacks copy. -/
theorem delivered_succ (r : (machine size).Run) (t : ℕ) :
    delivered r (t + 1) = delivered r t ++ consumes (r.st t) (r.inp t) := r.log_succ ..

/-- **The step**, unless a store of `wptr` leaves no byte. -/
theorem Kept.succ (h : Kept r t q) (hroom : ∀ buf, publishes (r.st t) (r.inp t) = some buf →
    (r.st t).count.toNat + buf.bytes.length < size.value.toNat) : ∃ q', Kept r (t + 1) q' := by
  have hplayed := played_succ r t
  have hdelivered := delivered_succ r t
  have hst := st_succ r t
  have hcount := h.tracks.count_toNat
  cases he : r.inp t with
  | play buf =>
      rw [he] at hst hplayed hdelivered
      refine ⟨q, ?_, ?_⟩
      · rw [hst]
        exact h.tracks.play
      · rw [hplayed, hdelivered, h.history]
        simp [publishes, consumes]
  | guest =>
      rw [he] at hst hplayed hdelivered hroom
      cases hp : publishes (r.st t) .guest with
      | none =>
          rw [hp] at hplayed
          refine ⟨q, ?_, ?_⟩
          · rw [hst]
            exact h.tracks.guest hp
          · rw [hplayed, hdelivered, h.history]
            simp [consumes]
      | some buf =>
          -- the store of `wptr` publishes what has been written
          have hless := hroom buf hp
          rw [hcount] at hless
          rw [hp] at hplayed
          refine ⟨q ++ buf.bytes, ?_, ?_⟩
          · rw [hst]
            exact h.tracks.publish hp hless
          · rw [hplayed, hdelivered, h.history]
            simp [consumes]
  | callback len =>
      rw [he] at hst hplayed hdelivered
      refine ⟨q.drop (min len.toNat q.length), ?_, ?_⟩
      · rw [hst]
        exact h.tracks.callback
      · rw [hplayed, hdelivered, h.history, h.tracks.consumes_eq]
        simp [publishes]

/-- As long as the queue is kept, nothing is lost. -/
theorem Kept.lossless (h : Kept r t q) : Lossless r t := by
  have hlen : (played r t).length - (delivered r t).length = q.length := by
    rw [h.history, List.length_append]
    omega
  refine ⟨?_, ?_, fun _ lens hsum => ?_⟩
  · rw [h.history]
    exact List.prefix_append ..
  · rw [hlen, h.tracks.count_toNat]
  · rw [hlen] at hsum
    rw [h.tracks.drains_eq hsum, h.history]

/-- A store of `wptr` that leaves no byte loses the whole ring. -/
theorem Kept.room_of_lossless (h : Kept r t q) (hl : Lossless r (t + 1))
    (hp : publishes (r.st t) (r.inp t) = some buf) :
    (r.st t).count.toNat + buf.bytes.length < size.value.toNat := by
  by_contra hno
  rw [h.tracks.count_toNat] at hno
  have he : r.inp t = .guest := by
    cases he : r.inp t with
    | guest => rfl
    | play | callback =>
        rw [he] at hp
        cases hp
  have hplayed := played_succ r t
  have hdelivered := delivered_succ r t
  have hst := st_succ r t
  rw [hp] at hplayed
  rw [he] at hp hst hdelivered
  obtain ⟨hholds, hnext, -⟩ := h.tracks.guest_publishes hp
  have hfull : q.length + buf.bytes.length = size.value.toNat := by
    have := hholds.room
    omega
  have hempty : Tracks (r.st (t + 1)) [] := by
    rw [hst]
    exact h.tracks.publish_full hp hfull
  -- one callback for the whole buffer finds nothing
  have hdrained := hl.drained (by rw [hst]; exact congrArg State.guest hnext) [size.value] (by
    rw [hplayed, hdelivered, h.history]
    simp [consumes]
    omega)
  rw [hempty.drains_eq (Nat.zero_le _), hplayed, hdelivered, h.history] at hdrained
  have hlen := congrArg List.length hdrained
  have hpos := buf.pos
  simp only [consumes, List.append_nil, List.length_append, Option.elim_some] at hlen
  omega

/-- The queue is kept as long as every store of `wptr` leaves a byte of the ring. -/
theorem exists_kept (r : (machine size).Run) (t : ℕ) (hroom : ∀ u < t, ∀ buf,
    publishes (r.st u) (r.inp u) = some buf →
      (r.st u).count.toNat + buf.bytes.length < size.value.toNat) : ∃ q, Kept r t q := by
  induction t with
  | zero => exact ⟨[], Tracks.of_init r.start, rfl⟩
  | succ t ih =>
      obtain ⟨q, h⟩ := ih fun u hu => hroom u (hu.trans t.lt_succ_self)
      exact h.succ (hroom t t.lt_succ_self)

/-- In a run in which nothing is lost, every store of `wptr` leaves a byte of the ring. -/
theorem room_of_lossless {r : (machine size).Run} (hl : ∀ t, Lossless r t) (t : ℕ)
    {buf : Samples size} (hp : publishes (r.st t) (r.inp t) = some buf) :
    (r.st t).count.toNat + buf.bytes.length < size.value.toNat := by
  induction t using Nat.strong_induction_on generalizing buf with
  | _ t ih =>
      obtain ⟨q, h⟩ := exists_kept r t fun u hu buf hp => ih u hu hp
      exact h.room_of_lossless (hl (t + 1)) hp

/-- **Nothing is lost in a run** if and only if every store of `wptr` leaves a byte of the
ring. -/
theorem lossless_iff (r : (machine size).Run) :
    (∀ t, Lossless r t) ↔ ∀ t buf, publishes (r.st t) (r.inp t) = some buf →
      (r.st t).count.toNat + buf.bytes.length < size.value.toNat := by
  constructor
  · intro hl t buf hp
    exact room_of_lossless hl t hp
  · intro hroom t
    obtain ⟨q, h⟩ := exists_kept r t fun u _ => hroom u
    exact h.lossless

/-! ### A call that fills the ring -/

/-- A single call, with no callback before it is done. -/
def onePlay (buf : Samples size) : (machine size).Run :=
  (machine size).run ⟨fun _ => 0, 0, 0, .idle⟩ ⟨rfl, rfl, rfl⟩ fun t =>
    if t = 0 then .play buf else .guest

/-- It finds room at once, and goes on with its stores. -/
theorem onePlay_copies (buf : Samples size) (i : ℕ) (hi : i ≤ buf.bytes.length) :
    ∃ sbuf, (onePlay buf).st (3 + i) = ⟨sbuf, 0, 0, .copy buf 0 i⟩ := by
  induction i with
  | zero =>
      have hpoll : (onePlay buf).st 2 = State.guestNext ⟨fun _ => 0, 0, 0, .poll buf⟩ := rfl
      have hcount : (⟨fun _ => 0, 0, 0, .poll buf⟩ : State size).count = 0 := by
        simp [State.count]
      have hle : buf.len ≤ size.value - 0 := by
        rw [BitVec.le_def, len_toNat, show size.value - 0 = size.value from BitVec.sub_zero _]
        exact buf.le
      refine ⟨fun _ => 0, ?_⟩
      rw [Nat.add_zero, st_succ _ 2, hpoll, State.guestNext]
      simp only [hcount]
      rw [if_pos hle]
      rfl
  | succ i ih =>
      obtain ⟨sbuf, hst⟩ := ih (by omega)
      have hget : buf.bytes[i]? = some buf.bytes[i] := List.getElem?_eq_getElem hi
      have hguest : (onePlay buf).inp (3 + i) = .guest := if_neg (by omega)
      refine ⟨Function.update sbuf (State.address size 0 buf.len i).toNat buf.bytes[i], ?_⟩
      rw [← Nat.add_assoc, st_succ, hst, hguest, State.next, State.guestNext]
      simp only [hget]

/-- Samples of the size of the ring: they are played, and nothing is ever copied. -/
theorem onePlay_lost : ¬ ∀ (size : SbSize) (r : (machine size).Run) (t : ℕ), Lossless r t := by
  intro h
  obtain ⟨buf, hlen⟩ : ∃ buf : Samples SB_SIZE, buf.bytes.length = 0x10000 :=
    ⟨⟨List.replicate 0x10000 1, by rw [List.length_replicate]; decide,
      by rw [List.length_replicate]; decide⟩, List.length_replicate⟩
  obtain ⟨sbuf, hst⟩ := onePlay_copies buf buf.bytes.length le_rfl
  have hguest : (onePlay buf).inp (3 + buf.bytes.length) = .guest := if_neg (by omega)
  have hp : publishes ((onePlay buf).st (3 + buf.bytes.length))
      ((onePlay buf).inp (3 + buf.bytes.length)) = some buf := by
    rw [hst, hguest]
    exact if_neg (lt_irrefl _)
  have hless := room_of_lossless (h SB_SIZE (onePlay buf)) _ hp
  rw [hlen] at hless
  exact absurd ((Nat.le_add_left ..).trans_lt hless) (by decide)

end Runs

end Audio

end Bailuwan
