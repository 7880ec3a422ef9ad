/-
# The transactions of the error slave

`AXI4ErrorSlave` by itself, under a master that does whatever it likes on every channel.
The beat counter of a read falls to 0 in each cycle in which nothing fires, and the
register of the write identifier is never written: a burst is answered in full if and
only if none of its beats but the last is stalled (`answered_iff`), and a write gets its
own identifier back if and only if that is what the register held from the start
(`writeAnswered_iff`).
-/
import Bailuwan.AXI4CrossBar
import Bailuwan.Synchronous

namespace Bailuwan

open Synchronous AXI4

namespace AXI4ErrorSlave

/-- The error slave as a synchronous machine. -/
def machine : Machine AXI4ErrorSlave Out where
  init := IsReset
  next := next

/-! ## One cycle of a read -/

section Cycle

variable {e : AXI4ErrorSlave} {o : Out}

/-- An address that is taken starts a burst of its length. -/
theorem next_of_arFire (h : arFire o e.ioIn = true) :
    (e.next o).rState = .busy ∧ (e.next o).rId = o.ar.bits.id ∧
      (e.next o).rCnt = o.ar.bits.len := by
  have hidle : e.rState = .idle := by simpa [arFire, ioIn] using (Bool.and_eq_true_iff.mp h).2
  refine ⟨?_, ?_, ?_⟩ <;> simp [next, hidle, h]

/-- A beat that is taken counts down; the one after which nothing is left is the last. -/
theorem next_of_rFire (h : rFire o e.ioIn = true) :
    e.rState = .busy ∧
      (e.next o).rState = (if e.rCnt = 0 then .idle else .busy) ∧ (e.next o).rId = e.rId ∧
      (e.next o).rCnt = e.rCnt - 1 := by
  have hbusy : e.rState = .busy := by simpa [rFire, ioIn] using (Bool.and_eq_true_iff.mp h).1
  have har : arFire o e.ioIn = false := by simp [arFire, ioIn, hbusy]
  have hlast : rLastFire o e.ioIn = decide (e.rCnt = 0) := by rw [rLastFire, h]; rfl
  refine ⟨hbusy, ?_, ?_, ?_⟩
  · simp only [next, hbusy, hlast, decide_eq_true_eq]
  · simp [next, har]
  · simp [next, har, h]

/-- A beat that is stalled forgets how many are left. -/
theorem next_of_stall (hbusy : e.rState = .busy) (h : rFire o e.ioIn = false) :
    (e.next o).rState = .busy ∧ (e.next o).rId = e.rId ∧ (e.next o).rCnt = 0 := by
  have har : arFire o e.ioIn = false := by simp [arFire, ioIn, hbusy]
  refine ⟨?_, ?_, ?_⟩
  · simp [next, hbusy, rLastFire, h]
  · simp [next, har]
  · simp [next, har, h]

/-- The counter goes down by one. -/
theorem rCnt_pred (h : e.rCnt ≠ 0) : (e.rCnt - 1).toNat + 1 = e.rCnt.toNat := by
  have hpos : e.rCnt.toNat ≠ 0 := fun h0 => h (BitVec.eq_of_toNat_eq h0)
  have hlt := e.rCnt.isLt
  rw [BitVec.toNat_sub, show (1 : BitVec 8).toNat = 1 from rfl]
  omega

/-- In a burst every cycle in which the master is ready gives a beat. -/
theorem rFire_of_busy (hbusy : e.rState = .busy) : rFire o e.ioIn = o.rReady := by
  simp [rFire, ioIn, hbusy]

end Cycle

/-! ## Read bursts -/

section Reads

variable (r : machine.Run)

/-- The slave accepts a read address in cycle `a`. -/
def Accepts (a : ℕ) : Prop := arFire (r.inp a) (r.st a).ioIn = true

/-- The address it accepts. -/
abbrev address (a : ℕ) : ReadAddressChannel := (r.inp a).ar.bits

/-- The beats taken after `a` and before `t`. -/
def beats (a t : ℕ) : ℕ := count (fun u => rFire (r.inp u) (r.st u).ioIn) (a + 1) t

/-- The address accepted in `a` is answered by `len + 1` beats with its identifier: as long
as fewer have been taken one is offered, the one before which `len` have been taken is
marked as the last, and no other address is accepted. -/
def Answered (a : ℕ) : Prop :=
  ∀ t, a < t → beats r a t ≤ (address r a).len.toNat →
    (r.st t).ioIn.r.valid = true ∧ (r.st t).ioIn.r.bits.resp = AXIResp.DECERR ∧
      (r.st t).ioIn.r.bits.id = (address r a).id ∧
      ((r.st t).ioIn.r.bits.last = true ↔ beats r a t = (address r a).len.toNat) ∧
      ¬ Accepts r t

/-- **The statement about read bursts**: every address is answered, and a beat is offered for
an address only, as long as it has had fewer than `len + 1`. -/
structure ReadBursts : Prop where
  answered : ∀ a, Accepts r a → Answered r a
  only : ∀ t, (r.st t).ioIn.r.valid = true →
    ∃ a < t, Accepts r a ∧ beats r a t ≤ (address r a).len.toNat

/-- The master stalls none of the first `len` beats. -/
def Unstalled (a : ℕ) : Prop :=
  ∀ k, 1 ≤ k → k ≤ (address r a).len.toNat → (r.inp (a + k)).rReady = true

theorem st_succ (t : ℕ) : r.st (t + 1) = (r.st t).next (r.inp t) := r.step t

variable {r} {a : ℕ}

/-- A burst that has just been taken has had no beats. -/
@[simp] theorem beats_self : beats r a (a + 1) = 0 := count_self _ _

/-- Every cycle counts its own beat. -/
theorem beats_succ {t : ℕ} (h : a < t) :
    beats r a (t + 1) = beats r a t + (rFire (r.inp t) (r.st t).ioIn).toNat :=
  count_succ _ h

/-- Beats are never taken back. -/
theorem beats_le_succ {t : ℕ} (h : a < t) : beats r a t ≤ beats r a (t + 1) := by
  rw [beats_succ h]
  omega

/-- What the registers hold in `t` of the burst accepted in `a`, none of whose beats has
been stalled but perhaps the last. -/
structure Serving (r : machine.Run) (a t : ℕ) : Prop where
  rState : (r.st t).rState = .busy
  rId : (r.st t).rId = (address r a).id
  rCnt : (r.st t).rCnt.toNat + beats r a t = (address r a).len.toNat
  time : beats r a t < (address r a).len.toNat → t = a + 1 + beats r a t

/-- A burst that has been taken is served from the next cycle on. -/
theorem serving_start (h : Accepts r a) : Serving r a (a + 1) := by
  obtain ⟨h1, h2, h3⟩ := next_of_arFire h
  constructor
  · rw [st_succ]; exact h1
  · rw [st_succ]; exact h2
  · rw [st_succ, beats_self]
    exact congrArg BitVec.toNat h3
  · intro _
    rw [beats_self]

/-- One cycle of a burst: a beat is taken, or the last one is stalled. -/
theorem Serving.step {t : ℕ} (h : Serving r a t) (hlt : a < t)
    (hready : beats r a t < (address r a).len.toNat → (r.inp t).rReady = true)
    (hleft : beats r a (t + 1) ≤ (address r a).len.toNat) : Serving r a (t + 1) := by
  have hsum := h.rCnt
  have hb := beats_succ (r := r) hlt
  cases hf : rFire (r.inp t) (r.st t).ioIn with
  | true =>
      obtain ⟨-, h1, h2, h3⟩ := next_of_rFire hf
      rw [hf, Bool.toNat_true] at hb
      -- there is another beat, so this one was not marked as the last
      have hne : (r.st t).rCnt ≠ 0 := by
        intro h0
        rw [h0, show (0 : BitVec 8).toNat = 0 from rfl] at hsum
        omega
      have hcnt := rCnt_pred hne
      constructor
      · rw [st_succ]; exact h1.trans (if_neg hne)
      · rw [st_succ]; exact h2.trans h.rId
      · rw [st_succ, h3]
        omega
      · intro hlt'
        have := h.time (by omega)
        omega
  | false =>
      obtain ⟨h1, h2, h3⟩ := next_of_stall h.rState hf
      rw [hf, Bool.toNat_false, Nat.add_zero] at hb
      -- only the last beat may be stalled
      have hall : ¬ beats r a t < (address r a).len.toNat := by
        intro hless
        rw [rFire_of_busy h.rState, hready hless] at hf
        exact absurd hf (by decide)
      constructor
      · rw [st_succ]; exact h1
      · rw [st_succ]; exact h2.trans h.rId
      · rw [st_succ, h3,
          show (0 : BitVec 8).toNat = 0 from rfl]
        omega
      · intro hlt'
        omega

/-- The burst is served until its last beat is taken, if the beats before were not stalled
up to then. -/
theorem serving (h : Accepts r a) {n : ℕ}
    (hready : ∀ k, 1 ≤ k → k ≤ (address r a).len.toNat → k < n → (r.inp (a + k)).rReady = true) :
    ∀ t, a < t → t ≤ a + n → beats r a t ≤ (address r a).len.toNat → Serving r a t := by
  intro t
  induction t with
  | zero => intro hlt; omega
  | succ t ih =>
      intro hlt hn hleft
      rcases Nat.lt_or_ge a t with hat | hat
      · have hprev := ih hat (by omega) ((beats_le_succ hat).trans hleft)
        refine hprev.step hat (fun hless => ?_) hleft
        have htime := hprev.time hless
        have hk := hready (t - a) (by omega) (by omega) (by omega)
        rwa [show a + (t - a) = t by omega] at hk
      · rw [show t = a by omega]
        exact serving_start h

/-- The counter tells the last beat. -/
theorem Serving.last_iff {t : ℕ} (h : Serving r a t) :
    (r.st t).ioIn.r.bits.last = true ↔ beats r a t = (address r a).len.toNat := by
  have hsum := h.rCnt
  show decide ((r.st t).rCnt = 0) = true ↔ _
  rw [decide_eq_true_eq, ← BitVec.toNat_inj, show (0 : BitVec 8).toNat = 0 from rfl]
  omega

/-- An unstalled burst is answered. -/
theorem answered_of_unstalled (h : Accepts r a) (hready : Unstalled r a) : Answered r a := by
  intro t hlt hleft
  have hs := serving h (n := t - a) (fun k h1 h2 _ => hready k h1 h2) t hlt (by omega) hleft
  refine ⟨?_, rfl, hs.rId, hs.last_iff, ?_⟩
  · simp [ioIn, hs.rState]
  · simp [Accepts, arFire, ioIn, hs.rState]

/-- The first stall ends a burst early: the beat after it is marked as the last. -/
theorem unstalled_of_answered (h : Accepts r a) (hans : Answered r a) : Unstalled r a := by
  intro k
  induction k using Nat.strong_induction_on with
  | _ k ih =>
      intro h1 h2
      have hb : beats r a (a + k) < (address r a).len.toNat ∧ Serving r a (a + k) := by
        -- up to here one beat is taken in every cycle
        have hle : ∀ j, 1 ≤ j → j ≤ k → beats r a (a + j) ≤ j - 1 := by
          intro j
          induction j with
          | zero => intro hj; omega
          | succ j ihj =>
              intro _ hjk
              rcases Nat.eq_zero_or_pos j with rfl | hj
              · exact (beats_self (r := r)).le
              · have hprev := ihj hj (by omega)
                have hsucc := beats_succ (r := r) (a := a) (t := a + j) (by omega)
                have hbit := Bool.toNat_le (rFire (r.inp (a + j)) (r.st (a + j)).ioIn)
                rw [show a + (j + 1) = a + j + 1 by omega, hsucc]
                omega
        have hlek := hle k h1 le_rfl
        refine ⟨by omega, ?_⟩
        exact serving h (n := k) (fun j hj1 hj2 hj3 => ih j hj3 hj1 hj2) (a + k) (by omega) le_rfl
          (by omega)
      by_contra hstall
      have hf : rFire (r.inp (a + k)) (r.st (a + k)).ioIn = false := by
        rw [rFire_of_busy hb.2.rState]
        simpa using hstall
      have hkeep : beats r a (a + k + 1) = beats r a (a + k) := by
        rw [beats_succ (by omega), hf]
        rfl
      have hlast : (r.st (a + k + 1)).ioIn.r.bits.last = true := by
        rw [r.step (a + k)]
        exact decide_eq_true (next_of_stall hb.2.rState hf).2.2
      have hend := (hans (a + k + 1) (by omega) (by omega)).2.2.2.1.mp hlast
      omega

/-- **A read burst is answered** if and only if none of its first `len` beats is stalled. -/
theorem answered_iff (h : Accepts r a) : Answered r a ↔ Unstalled r a := by
  constructor
  · exact unstalled_of_answered h
  · exact answered_of_unstalled h

/-- A master that does not stall for ever takes all the beats of an answered address. -/
theorem Answered.complete (hans : Answered r a)
    (hready : ∀ t, ∃ u, t ≤ u ∧ (r.inp u).rReady = true) (n : ℕ)
    (hn : n ≤ (address r a).len.toNat + 1) : ∃ t, a < t ∧ beats r a t = n := by
  induction n with
  | zero => exact ⟨a + 1, by omega, beats_self⟩
  | succ n ih =>
      obtain ⟨t, hlt, hb⟩ := ih (by omega)
      -- the next beat is taken in the first cycle in which the master is ready
      obtain ⟨u, htu, ⟨hau, hbu⟩, hru, -⟩ := exists_first_at
        (p := fun v => a < v ∧ beats r a v = n) (e := fun v => (r.inp v).rReady = true) ⟨hlt, hb⟩
        (fun v _ hv hstall => ⟨by omega, by
          rw [beats_succ hv.1, hv.2, show rFire (r.inp v) (r.st v).ioIn = false by
            simp [rFire, hstall], Bool.toNat_false, Nat.add_zero]⟩) (hready t)
      have hvalid := (hans u hau (by omega)).1
      refine ⟨u + 1, by omega, ?_⟩
      rw [beats_succ hau, hbu, show rFire (r.inp u) (r.st u).ioIn = true by
        rw [rFire, hvalid, hru, Bool.and_self], Bool.toNat_true]

/-- In `t` the slave owes beats to an address: at least as many as its counter says, and
one. -/
def Owes (r : machine.Run) (t : ℕ) : Prop :=
  ∃ a < t, Accepts r a ∧ (r.st t).rCnt.toNat + beats r a t ≤ (address r a).len.toNat

/-- A slave that stays busy after a cycle still owes beats to the same address. -/
theorem Owes.succ {t : ℕ} (h : Owes r t) (hst : (r.st t).rState = .busy)
    (hbusy : (r.st (t + 1)).rState = .busy) : Owes r (t + 1) := by
  obtain ⟨a, hlt, hacc, hsum⟩ := h
  refine ⟨a, by omega, hacc, ?_⟩
  rw [beats_succ hlt, st_succ]
  cases hf : rFire (r.inp t) (r.st t).ioIn with
  | true =>
      obtain ⟨-, h1, -, h3⟩ := next_of_rFire hf
      -- it was not the last beat
      have hne : (r.st t).rCnt ≠ 0 := by
        intro h0
        rw [st_succ, h1, if_pos h0] at hbusy
        exact absurd hbusy (by decide)
      have hcnt := rCnt_pred hne
      rw [h3, Bool.toNat_true]
      omega
  | false =>
      rw [(next_of_stall hst hf).2.2, Bool.toNat_false]
      exact le_trans (by simp) hsum

/-- A busy slave owes beats. -/
theorem owes (r : machine.Run) : ∀ t, (r.st t).rState = .busy → Owes r t := by
  intro t
  induction t with
  | zero =>
      intro hbusy
      rw [r.start.rState] at hbusy
      exact absurd hbusy (by decide)
  | succ t ih =>
      intro hbusy
      cases hst : (r.st t).rState with
      | busy => exact (ih hst).succ hst hbusy
      | idle =>
          have har : Accepts r t := by
            by_contra hno
            have hno' : arFire (r.inp t) (r.st t).ioIn = false := by simpa [Accepts] using hno
            rw [st_succ] at hbusy
            simp [next, hst, hno'] at hbusy
          exact ⟨t, by omega, har, (serving_start har).rCnt.le⟩

/-- **Read bursts of the error slave**: in a run every accepted address gets its `len + 1`
beats, and no beat is offered without one, if and only if the master stalls none of the
first `len` beats of any burst. -/
theorem readBursts_iff (r : machine.Run) :
    ReadBursts r ↔ ∀ a, Accepts r a → Unstalled r a := by
  constructor
  · intro h a ha
    exact (answered_iff ha).mp (h.answered a ha)
  · intro h
    refine ⟨fun a ha => (answered_iff ha).mpr (h a ha), fun t hv => ?_⟩
    obtain ⟨a, hlt, ha, hsum⟩ := owes r t (by simpa [ioIn] using hv)
    exact ⟨a, hlt, ha, by omega⟩

/-! ### A stalled burst -/

/-- A master that asks for `len + 1` beats in cycle 0 and is ready as `ready` says. -/
def asking (len : BitVec 8) (ready : ℕ → Bool) : machine.Run :=
  machine.run ⟨.idle, 0, 0, 0, .idle, 0⟩ ⟨rfl, rfl⟩
    fun t => { ar := ⟨decide (t = 0), { len := len }⟩, rReady := ready t }

/-- Two beats are asked for and the first is stalled for one cycle: one beat is given. -/
theorem stalled_not_readBursts : ¬ ∀ r : machine.Run, ReadBursts r := by
  intro h
  have hlast := ((h (asking 1 fun t => decide (2 ≤ t))).answered 0 (show arFire _ _ = true by decide) 2
    (by decide) (by decide)).2.2.2.1
  exact absurd (hlast.mp (by decide)) (by decide)

end Reads

/-! ## Writes -/

section Writes

variable (r : machine.Run)

/-- The slave accepts a write address in cycle `a`. -/
def AcceptsWrite (a : ℕ) : Prop := awFire (r.inp a) (r.st a).ioIn = true

/-- The number of last data beats after `a` and before `t`. -/
def lasts (a t : ℕ) : ℕ := count (fun u => wLastFire (r.inp u) (r.st u).ioIn) (a + 1) t

/-- The number of responses after `a` and before `t`. -/
def responses (a t : ℕ) : ℕ := count (fun u => bFire (r.inp u) (r.st u).ioIn) (a + 1) t

/-- The slave offers the response of the write accepted in `a`. -/
def Responds (a t : ℕ) : Prop :=
  (r.st t).ioIn.b.valid = true ∧ (r.st t).ioIn.b.bits.resp = AXIResp.DECERR ∧
    (r.st t).ioIn.b.bits.id = (r.inp a).aw.bits.id

/-- **The statement about writes**, for the address accepted in `a`: there is no response before
its last data beat, from then on one is offered until it is taken, no address is accepted
before, and there is no second response for it. -/
structure WriteAnswered (a : ℕ) : Prop where
  waits : ∀ t, a < t → lasts r a t = 0 →
    (r.st t).ioIn.b.valid = false ∧ ¬ AcceptsWrite r t
  answers : ∀ t, a < t → lasts r a t ≠ 0 → responses r a t = 0 →
    Responds r a t ∧ ¬ AcceptsWrite r t
  once : ∀ t, a < t → responses r a t ≠ 0 → (∀ u, a < u → u < t → ¬ AcceptsWrite r u) →
    (r.st t).ioIn.b.valid = false

/-- `w_id` keeps what it held at power-up. -/
theorem wId_eq : ∀ t, (r.st t).wId = (r.st 0).wId := by
  intro t
  induction t with
  | zero => rfl
  | succ t ih =>
      rw [← ih, r.step t]
      rfl

variable {r} {a : ℕ}

/-- The phase of the write accepted in `a`, by what has happened since. -/
structure Phase (r : machine.Run) (a t : ℕ) : Prop where
  data : lasts r a t = 0 → (r.st t).wState = .waitData ∧ responses r a t = 0
  resp : lasts r a t ≠ 0 → responses r a t = 0 → (r.st t).wState = .resp
  done : responses r a t ≠ 0 → (∀ u, a < u → u < t → ¬ AcceptsWrite r u) →
    (r.st t).wState = .idle

/-- A write address is taken in `s_idle` only. -/
theorem wState_idle_of_accepts {t : ℕ} (h : AcceptsWrite r t) : (r.st t).wState = .idle := by
  simpa [awFire, ioIn] using (Bool.and_eq_true_iff.mp h).2

/-- Nothing is taken before the write is over. -/
theorem not_acceptsWrite {t : ℕ} (h : (r.st t).wState ≠ .idle) : ¬ AcceptsWrite r t :=
  fun ha => h (wState_idle_of_accepts ha)

/-- The phase the register of a write stands for. -/
def phaseOf : ErrorWriteState → Synchronous.Phase
  | .idle => .idle
  | .waitData => .running
  | .resp => .ended

/-- The slave is a write transaction at a time. -/
theorem transacts (r : machine.Run) : Transacts (fun t => phaseOf (r.st t).wState)
    (fun t => awFire (r.inp t) (r.st t).ioIn) (fun t => wLastFire (r.inp t) (r.st t).ioIn)
    (fun t => bFire (r.inp t) (r.st t).ioIn) where
  step := fun t => by
    rw [r.step t]
    cases hw : (r.st t).wState with
    | idle =>
        cases hf : awFire (r.inp t) (r.st t).ioIn <;>
          simp [machine, next, hw, hf, phaseOf, Synchronous.Phase.next]
    | waitData =>
        cases hf : wLastFire (r.inp t) (r.st t).ioIn <;>
          simp [machine, next, hw, hf, phaseOf, Synchronous.Phase.next]
    | resp =>
        cases hf : bFire (r.inp t) (r.st t).ioIn <;>
          simp [machine, next, hw, hf, phaseOf, Synchronous.Phase.next]
  start_idle := fun t h => by rw [wState_idle_of_accepts h]; rfl
  stop_running := fun t h => by
    have hw : (r.st t).wState = .waitData := by
      simpa [wLastFire, wFire, ioIn] using (Bool.and_eq_true_iff.mp (Bool.and_eq_true_iff.mp h).1).2
    rw [hw]
    rfl
  answer_ended := fun t h => by
    have hw : (r.st t).wState = .resp := by
      simpa [bFire, ioIn] using (Bool.and_eq_true_iff.mp h).1
    rw [hw]
    rfl

/-- A write is in one of its phases until the next one. -/
theorem phase (h : AcceptsWrite r a) (t : ℕ) (hlt : a < t) : Phase r a t := by
  have hp := (transacts r).since h t hlt
  constructor
  · intro hl
    obtain ⟨hrun, hans⟩ := hp.running hl
    refine ⟨?_, hans⟩
    cases hw : (r.st t).wState <;> simp [hw, phaseOf] at hrun ⊢
  · intro hl hr
    have hend := hp.ended hl hr
    cases hw : (r.st t).wState <;> simp [hw, phaseOf] at hend ⊢
  · intro hr hquiet
    have hidle := hp.done hr hquiet
    cases hw : (r.st t).wState <;> simp [hw, phaseOf] at hidle ⊢

/-- A response is given in `s_resp` only. -/
theorem bValid_iff (r : machine.Run) (t : ℕ) :
    (r.st t).ioIn.b.valid = true ↔ (r.st t).wState = .resp := by
  simp [ioIn]

/-- The data of a write ends in `b`. -/
def DataEnds (r : machine.Run) (a b : ℕ) : Prop :=
  a < b ∧ wLastFire (r.inp b) (r.st b).ioIn = true

/-- A response is due at some time if and only if the data ends. -/
theorem exists_dataEnds_iff (h : AcceptsWrite r a) :
    (∃ b, DataEnds r a b) ↔ ∃ t, a < t ∧ lasts r a t ≠ 0 ∧ responses r a t = 0 := by
  constructor
  · rintro ⟨b, hab, hb⟩
    have hzero : lasts r a (a + 1) = 0 := count_self _ _
    -- the first cycle in which it ends
    obtain ⟨u, hau, hl, hu, -⟩ := exists_first_at (p := fun u => a < u ∧ lasts r a u = 0)
      (e := fun u => wLastFire (r.inp u) (r.st u).ioIn = true) ⟨by omega, hzero⟩
      (fun u _ hp hno => ⟨by omega,
        (count_succ_eq_zero_iff _ hp.1).mpr ⟨hp.2, by simpa using hno⟩⟩) ⟨b, by omega, hb⟩
    obtain ⟨hw, hr⟩ := (phase h u hau).data hl.2
    have hb0 : bFire (r.inp u) (r.st u).ioIn = false := by simp [bFire, ioIn, hw]
    refine ⟨u + 1, by omega, fun h0 => ?_, (count_succ_eq_zero_iff _ hl.1).mpr ⟨hr, hb0⟩⟩
    have hno := ((count_succ_eq_zero_iff _ hl.1).mp h0).2
    exact absurd (hno.symm.trans hu) (by decide)
  · rintro ⟨t, -, hl, -⟩
    by_contra hno
    refine hl ?_
    rw [lasts, count_eq_zero_iff]
    intro u hu _
    by_contra hf
    exact hno ⟨u, hu, by simpa using hf⟩

/-- **A write is answered** if and only if, in case its data ends, its identifier is the
one that `w_id` held at power-up. -/
theorem writeAnswered_iff (h : AcceptsWrite r a) :
    WriteAnswered r a ↔ ((∃ b, DataEnds r a b) → (r.inp a).aw.bits.id = (r.st 0).wId) := by
  rw [exists_dataEnds_iff h]
  constructor
  · rintro hans ⟨t, hlt, hl, hr⟩
    rw [← (hans.answers t hlt hl hr).1.2.2, ← wId_eq r t]
    rfl
  · intro hid
    constructor
    · intro t hlt hl
      have hw := ((phase h t hlt).data hl).1
      exact ⟨by simp [ioIn, hw], not_acceptsWrite (by simp [hw])⟩
    · intro t hlt hl hr
      have hw := (phase h t hlt).resp hl hr
      refine ⟨⟨(bValid_iff r t).mpr hw, rfl, ?_⟩, not_acceptsWrite (by simp [hw])⟩
      exact (wId_eq r t).trans (hid ⟨t, hlt, hl, hr⟩).symm
    · intro t hlt hr hquiet
      have hw := (phase h t hlt).done hr hquiet
      simp [ioIn, hw]

/-- **Writes of the error slave**: in a run all writes are answered, if and only if those
whose data ends have the identifier that `w_id` held at power-up. -/
theorem writesAnswered_iff (r : machine.Run) :
    (∀ a, AcceptsWrite r a → WriteAnswered r a) ↔
      ∀ a, AcceptsWrite r a → (∃ b, DataEnds r a b) →
        (r.inp a).aw.bits.id = (r.st 0).wId := by
  refine forall_congr' fun a => forall_congr' fun ha => ?_
  exact writeAnswered_iff ha

/-! ### A write with another identifier -/

/-- A master that writes one beat with identifier 5, to a slave whose `w_id` holds 0. -/
def writing : machine.Run :=
  machine.run ⟨.idle, 0, 0, 0, .idle, 0⟩ ⟨rfl, rfl⟩ fun t =>
    { aw := ⟨decide (t = 0), { id := 5 }⟩, w := ⟨decide (t = 1), { last := true }⟩, bReady := true }

/-- It gets a response with identifier 0. -/
theorem writing_not_answered :
    ¬ ∀ (r : machine.Run) (a : ℕ), AcceptsWrite r a → WriteAnswered r a := by
  intro h
  have hid := ((h writing 0 (show awFire _ _ = true by decide)).answers 2 (by decide) (by decide)
    (by decide)).1.2.2
  exact absurd hid (by decide)

end Writes

end AXI4ErrorSlave

end Bailuwan
