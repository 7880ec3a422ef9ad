/-
# The memory behind the DPI calls (`utils/DPICMem.scala`)

A slave that answers bursts from `pmem_read` and hands write beats to `pmem_write`.  The
calls are made at the clock edge: what `pmem_read` returns there is an input of the cycle,
and the call of `pmem_write` is an output of it.  The value read at one edge is offered from
the next cycle on, so the address of the read runs one beat ahead.

`answersBursts` is about any run, whatever the master stalls: the beats of a read are
`len + 1` and carry what is in memory, each beat of a write is written once at its address
and the write is answered once, and neither side sees the other.
-/
import Bailuwan.AXI4
import Bailuwan.Synchronous

namespace Bailuwan

open Synchronous AXI4

/-! ## Registers and signals -/

/-- `r_idle`, `r_data_valid` -/
inductive DPICReadState
  | idle
  | dataValid
  deriving DecidableEq, Repr

/-- `w_idle`, `w_data`, `w_resp` -/
inductive DPICWriteState
  | idle
  | data
  | resp
  deriving DecidableEq, Repr

/-- The inputs of one cycle, with what `pmem_read` returns at the edge that ends it. -/
structure DPICMemIn where
  io : AXI4.Out
  pmemRead : Word → Word

/-- A call of `pmem_write`. -/
structure PMemWrite where
  waddr : Word
  wdata : Word
  wmask : BitVec 8
  deriving DecidableEq, Repr

/-- The registers; `memReadOut` is the one inside `PMemReadDPICWrapper`. -/
structure DPICMem where
  rState : DPICReadState
  rCtx : ReadAddressChannel
  rAddr : Word
  rCnt : BitVec 8
  memReadOut : Word
  wState : DPICWriteState
  wCtx : WriteAddressChannel
  wAddr : Word

namespace DPICMem

/-- `compute_next_addr` -/
def computeNextAddr (currAddr : Word) (size : BitVec 3) (burst : BitVec 2) : Word :=
  let incr : BitVec 8 := 1#8 <<< size
  if burst = AXIBurstType.FIXED then currAddr else currAddr + incr.setWidth 32

variable (d : DPICMem) (i : DPICMemIn)

/-- What reset fixes. -/
structure IsReset : Prop where
  rState : d.rState = .idle
  rAddr : d.rAddr = 0
  rCnt : d.rCnt = 0
  wState : d.wState = .idle
  wAddr : d.wAddr = 0

/-- The slave's half of the port. -/
def ioIn : AXI4.In where
  awReady := decide (d.wState = .idle)
  wReady := decide (d.wState = .data)
  b := ⟨decide (d.wState = .resp), { resp := AXIResp.OKAY, id := d.wCtx.id }⟩
  arReady := decide (d.rState = .idle)
  r := ⟨decide (d.rState = .dataValid),
    { data := d.memReadOut, resp := AXIResp.OKAY, last := decide (d.rCnt = d.rCtx.len)
      id := d.rCtx.id }⟩

/-- The address of the read after the cycle: that of the next beat when one is taken. -/
def rNextAddr : Word :=
  if arFire i.io d.ioIn then i.io.ar.bits.addr
  else if rFire i.io d.ioIn then computeNextAddr d.rAddr d.rCtx.size d.rCtx.burst
  else d.rAddr

/-- `mem_read.io.en` -/
def memReadEn : Bool :=
  (arFire i.io d.ioIn && decide (d.rState = .idle)) ||
    (decide (d.rState = .dataValid) && !rLastFire i.io d.ioIn)

/-- The address of the write after the cycle. -/
def wNextAddr : Word :=
  if awFire i.io d.ioIn then i.io.aw.bits.addr
  else if wFire i.io d.ioIn then computeNextAddr d.wAddr d.wCtx.size d.wCtx.burst
  else d.wAddr

/-- The call of `pmem_write` at the edge, if there is one. -/
def pmemWrite : Option PMemWrite :=
  if decide (d.wState = .data) && wFire i.io d.ioIn then
    some ⟨d.wAddr, i.io.w.bits.data, i.io.w.bits.strb.setWidth 8⟩
  else none

/-- The clock edge. -/
def next : DPICMem where
  rState := match d.rState with
    | .idle => if arFire i.io d.ioIn then .dataValid else .idle
    | .dataValid => if rLastFire i.io d.ioIn then .idle else .dataValid
  rCtx := if arFire i.io d.ioIn then i.io.ar.bits else d.rCtx
  rAddr := d.rNextAddr i
  rCnt := if arFire i.io d.ioIn then 0 else if rFire i.io d.ioIn then d.rCnt + 1 else d.rCnt
  memReadOut := if d.memReadEn i then i.pmemRead (d.rNextAddr i) else 0
  wState := match d.wState with
    | .idle => if awFire i.io d.ioIn then .data else .idle
    | .data => if wLastFire i.io d.ioIn then .resp else .data
    | .resp => if bFire i.io d.ioIn then .idle else .resp
  wCtx := if awFire i.io d.ioIn then i.io.aw.bits else d.wCtx
  wAddr := d.wNextAddr i

/-- The memory as a synchronous machine. -/
def machine : Machine DPICMem DPICMemIn where
  init := IsReset
  next := next

/-! ## The addresses of a burst -/

/-- The address of beat `k`. -/
def burstAddr (addr : Word) (size : BitVec 3) (burst : BitVec 2) (k : ℕ) : Word :=
  if burst = AXIBurstType.FIXED then addr else addr + BitVec.ofNat 32 (k * 2 ^ size.toNat)

/-- The first beat is at the address of the burst. -/
@[simp] theorem burstAddr_zero (addr : Word) (size : BitVec 3) (burst : BitVec 2) :
    burstAddr addr size burst 0 = addr := by
  rw [burstAddr, Nat.zero_mul]
  split
  · rfl
  · exact BitVec.add_zero addr

/-- An incrementing burst goes on by the size of a beat. -/
theorem incr_eq (size : BitVec 3) :
    ((1#8 <<< size : BitVec 8).setWidth 32 : Word) = BitVec.ofNat 32 (2 ^ size.toNat) := by
  revert size
  decide

/-- Every beat leads to the address of the next. -/
theorem computeNextAddr_burstAddr (addr : Word) (size : BitVec 3) (burst : BitVec 2) (k : ℕ) :
    computeNextAddr (burstAddr addr size burst k) size burst =
      burstAddr addr size burst (k + 1) := by
  unfold computeNextAddr burstAddr
  by_cases hb : burst = AXIBurstType.FIXED
  · rw [if_pos hb, if_pos hb, if_pos hb]
  · rw [if_neg hb, if_neg hb, if_neg hb, incr_eq, BitVec.add_assoc, ← BitVec.ofNat_add,
      Nat.succ_mul]

/-! ## Reads -/

section Reads

variable (r : machine.Run)

/-- A read address is accepted in cycle `a`. -/
def Accepts (a : ℕ) : Prop := arFire (r.inp a).io (r.st a).ioIn = true

/-- The address it accepts. -/
abbrev address (a : ℕ) : ReadAddressChannel := (r.inp a).io.ar.bits

/-- The beats taken after `a` and before `t`. -/
def beats (a t : ℕ) : ℕ := count (fun u => rFire (r.inp u).io (r.st u).ioIn) (a + 1) t

/-- What is offered in `t` is the next beat of the burst accepted in `a`.  Its data is the
word at its address in a memory that has not changed from `a` on. -/
structure Beat (a t : ℕ) : Prop where
  valid : (r.st t).ioIn.r.valid = true
  resp : (r.st t).ioIn.r.bits.resp = AXIResp.OKAY
  id : (r.st t).ioIn.r.bits.id = (address r a).id
  last : (r.st t).ioIn.r.bits.last = true ↔ beats r a t = (address r a).len.toNat
  data : ∀ mem : Word → Word, (∀ u, a ≤ u → u < t → (r.inp u).pmemRead = mem) →
    (r.st t).ioIn.r.bits.data = mem (beatAddr (address r a) (beats r a t))

/-- **The statement about reads**: as long as no more than `len` beats have been taken of an
accepted burst the next one is offered and no other address is accepted, and nothing else
is ever offered. -/
structure ReadBursts : Prop where
  answered : ∀ a, Accepts r a → ∀ t, a < t → beats r a t ≤ (address r a).len.toNat →
    Beat r a t ∧ ¬ Accepts r t
  only : ∀ t, (r.st t).ioIn.r.valid = true →
    ∃ a < t, Accepts r a ∧ beats r a t ≤ (address r a).len.toNat

variable {r} {a t : ℕ}

/-- A burst that has just been taken has had no beats. -/
@[simp] theorem beats_self : beats r a (a + 1) = 0 := count_self _ _

/-- Every cycle counts its own beat. -/
theorem beats_succ (h : a < t) :
    beats r a (t + 1) = beats r a t + (rFire (r.inp t).io (r.st t).ioIn).toNat :=
  count_succ _ h

/-- An address is taken in `s_idle` only. -/
theorem rIdle_of_accepts (h : Accepts r t) : (r.st t).rState = .idle := by
  simpa [arFire, ioIn] using (Bool.and_eq_true_iff.mp h).2

/-- The registers in `t` of the burst accepted in `a`. -/
structure Serving (r : machine.Run) (a t : ℕ) : Prop where
  rState : (r.st t).rState = .dataValid
  rCtx : (r.st t).rCtx = address r a
  rCnt : (r.st t).rCnt = BitVec.ofNat 8 (beats r a t)
  rAddr : (r.st t).rAddr = beatAddr (address r a) (beats r a t)
  memReadOut : (r.st t).memReadOut =
    (r.inp (t - 1)).pmemRead (beatAddr (address r a) (beats r a t))

theorem beatAddr_zero (ar : ReadAddressChannel) : beatAddr ar 0 = ar.addr := burstAddr_zero ..

theorem computeNextAddr_beatAddr (ar : ReadAddressChannel) (k : ℕ) :
    computeNextAddr (beatAddr ar k) ar.size ar.burst = beatAddr ar (k + 1) :=
  computeNextAddr_burstAddr ..

/-- A burst that has been taken is served from the next cycle on. -/
theorem serving_start (h : Accepts r a) : Serving r a (a + 1) := by
  have hidle := rIdle_of_accepts h
  have hfire : arFire (r.inp a).io (r.st a).ioIn = true := h
  have haddr : (r.st a).rNextAddr (r.inp a) = beatAddr (address r a) (beats r a (a + 1)) := by
    rw [rNextAddr, hfire, if_pos rfl, beats_self, beatAddr_zero]
  constructor <;> rw [r.step a]
  · simp [machine, next, hidle, hfire]
  · simp [machine, next, hfire]
  · simp [machine, next, hfire]
  · exact haddr
  · simp [machine, next, memReadEn, hidle, hfire, haddr]

/-- The counter is at the length in the last beat. -/
theorem Serving.last_iff (h : Serving r a t) (hle : beats r a t ≤ (address r a).len.toNat) :
    (r.st t).rCnt = (r.st t).rCtx.len ↔ beats r a t = (address r a).len.toNat := by
  have hlt := (address r a).len.isLt
  rw [h.rCtx, h.rCnt, ← BitVec.toNat_inj, BitVec.toNat_ofNat, Nat.mod_eq_of_lt (by omega)]

/-- One cycle of a burst after which a beat is still due. -/
theorem Serving.step (h : Serving r a t) (hlt : a < t)
    (hle : beats r a (t + 1) ≤ (address r a).len.toNat) : Serving r a (t + 1) := by
  have hb := beats_succ (r := r) hlt
  have har : arFire (r.inp t).io (r.st t).ioIn = false := by simp [arFire, ioIn, h.rState]
  have hlast := h.last_iff (by omega)
  -- the beat that is offered is not taken, or it is not the last one
  have hmore : rLastFire (r.inp t).io (r.st t).ioIn = false := by
    cases hf : rFire (r.inp t).io (r.st t).ioIn with
    | false => rw [rLastFire, hf, Bool.false_and]
    | true =>
        rw [hf, Bool.toNat_true] at hb
        rw [rLastFire, hf, Bool.true_and]
        exact decide_eq_false (by rw [hlast]; omega)
  have haddr : (r.st t).rNextAddr (r.inp t) = beatAddr (address r a) (beats r a (t + 1)) := by
    rw [rNextAddr, har, if_neg (by decide), hb, h.rAddr, h.rCtx]
    cases rFire (r.inp t).io (r.st t).ioIn with
    | false => rfl
    | true => exact computeNextAddr_beatAddr ..
  have hcnt : (if rFire (r.inp t).io (r.st t).ioIn then (r.st t).rCnt + 1 else (r.st t).rCnt) =
      BitVec.ofNat 8 (beats r a (t + 1)) := by
    rw [hb, h.rCnt]
    cases rFire (r.inp t).io (r.st t).ioIn with
    | false => rfl
    | true => exact (BitVec.ofNat_add ..).symm
  constructor <;> rw [r.step t]
  · simp [machine, next, h.rState, hmore]
  · simp [machine, next, har, h.rCtx]
  · show (if arFire (r.inp t).io (r.st t).ioIn then _ else _) = _
    rw [har, if_neg (by decide)]
    exact hcnt
  · exact haddr
  · simp [machine, next, memReadEn, h.rState, hmore, haddr]

/-- Beats are never taken back. -/
theorem beats_le_succ (h : a < t) : beats r a t ≤ beats r a (t + 1) := by
  rw [beats_succ h]
  omega

/-- A burst is served as long as beats are missing. -/
theorem serving (h : Accepts r a) :
    ∀ t, a < t → beats r a t ≤ (address r a).len.toNat → Serving r a t := by
  intro t
  induction t with
  | zero => intro hlt; omega
  | succ t ih =>
      intro hlt hle
      rcases Nat.lt_or_ge a t with hat | hat
      · exact (ih hat ((beats_le_succ hat).trans hle)).step hat hle
      · rw [show t = a by omega]
        exact serving_start h

/-- What is given while it is served is the beat. -/
theorem Serving.beat (h : Serving r a t) (hlt : a < t)
    (hle : beats r a t ≤ (address r a).len.toNat) : Beat r a t where
  valid := decide_eq_true h.rState
  resp := rfl
  id := congrArg ReadAddressChannel.id h.rCtx
  last := decide_eq_true_iff.trans (h.last_iff hle)
  data := fun mem hmem => by
    show (r.st t).memReadOut = _
    rw [h.memReadOut, hmem (t - 1) (by omega) (by omega)]

/-- Whatever is offered belongs to a burst that was accepted. -/
theorem owes (r : machine.Run) : ∀ t, (r.st t).rState = .dataValid →
    ∃ a < t, Accepts r a ∧ beats r a t ≤ (address r a).len.toNat := by
  intro t
  induction t with
  | zero =>
      intro hbusy
      rw [r.start.rState] at hbusy
      exact absurd hbusy (by decide)
  | succ t ih =>
      intro hbusy
      cases hs : (r.st t).rState with
      | idle =>
          have hfire : Accepts r t := by
            by_contra hno
            have hno' : arFire (r.inp t).io (r.st t).ioIn = false := by simpa [Accepts] using hno
            rw [r.step t] at hbusy
            simp [machine, next, hs, hno'] at hbusy
          exact ⟨t, by omega, hfire, by rw [beats_self]; omega⟩
      | dataValid =>
          obtain ⟨a, hlt, ha, hle⟩ := ih hs
          have hserve := serving ha t hlt hle
          refine ⟨a, by omega, ha, ?_⟩
          have hb := beats_succ (r := r) hlt
          cases hf : rFire (r.inp t).io (r.st t).ioIn with
          | false =>
              rw [hb, hf, Bool.toNat_false]
              exact hle
          | true =>
              -- the burst goes on, so this was not the last beat
              have hne : beats r a t ≠ (address r a).len.toNat := by
                intro heq
                have hlast : (r.st t).ioIn.r.bits.last = true :=
                  (hserve.beat hlt hle).last.mpr heq
                have hend : rLastFire (r.inp t).io (r.st t).ioIn = true := by
                  rw [rLastFire, hf, hlast]
                  rfl
                rw [r.step t] at hbusy
                simp [machine, next, hs, hend] at hbusy
              rw [hb, hf, Bool.toNat_true]
              omega

/-- Every read is answered by its burst. -/
theorem readBursts (r : machine.Run) : ReadBursts r where
  answered := fun a ha t hlt hle => by
    have hserve := serving ha t hlt hle
    refine ⟨hserve.beat hlt hle, fun hno => ?_⟩
    have hidle := rIdle_of_accepts hno
    rw [hserve.rState] at hidle
    exact absurd hidle (by decide)
  only := fun t hv => owes r t (by simpa [ioIn] using hv)

end Reads

/-! ## Writes -/

section Writes

variable (r : machine.Run)

/-- A write address is accepted in cycle `a`. -/
def AcceptsWrite (a : ℕ) : Prop := awFire (r.inp a).io (r.st a).ioIn = true

/-- The address it accepts. -/
abbrev writeAddress (a : ℕ) : WriteAddressChannel := (r.inp a).io.aw.bits

/-- The number of data beats after `a` and before `t`. -/
def wBeats (a t : ℕ) : ℕ := count (fun u => wFire (r.inp u).io (r.st u).ioIn) (a + 1) t

/-- The number of last data beats after `a` and before `t`. -/
def lasts (a t : ℕ) : ℕ := count (fun u => wLastFire (r.inp u).io (r.st u).ioIn) (a + 1) t

/-- The number of responses after `a` and before `t`. -/
def responses (a t : ℕ) : ℕ := count (fun u => bFire (r.inp u).io (r.st u).ioIn) (a + 1) t

/-- The call of `pmem_write` that the data beat in `t` of the write accepted in `a` is due. -/
def dueWrite (a t : ℕ) : PMemWrite :=
  let aw := writeAddress r a
  ⟨burstAddr aw.addr aw.size aw.burst (wBeats r a t), (r.inp t).io.w.bits.data,
    (r.inp t).io.w.bits.strb.setWidth 8⟩

/-- The write accepted in `a`: up to its last data beat every beat is taken when it is offered
and makes its call, then a response is offered until it is taken, and after it there is no
other before the next write. -/
structure WriteAnswered (a : ℕ) : Prop where
  takes : ∀ t, a < t → lasts r a t = 0 →
    (r.st t).ioIn.wReady = true ∧ (r.st t).ioIn.b.valid = false ∧ ¬ AcceptsWrite r t ∧
      ((r.inp t).io.w.valid = true → (r.st t).pmemWrite (r.inp t) = some (dueWrite r a t))
  answers : ∀ t, a < t → lasts r a t ≠ 0 → responses r a t = 0 →
    (r.st t).ioIn.b.valid = true ∧ (r.st t).ioIn.b.bits.resp = AXIResp.OKAY ∧
      (r.st t).ioIn.b.bits.id = (writeAddress r a).id ∧ (r.st t).ioIn.wReady = false ∧
      ¬ AcceptsWrite r t
  once : ∀ t, a < t → responses r a t ≠ 0 → (∀ u, a < u → u < t → ¬ AcceptsWrite r u) →
    (r.st t).ioIn.b.valid = false ∧ (r.st t).ioIn.wReady = false

/-- **The statement about writes**: every write is answered, a call is made only for a data beat
that is taken, and data is taken and a response offered only for a write that was accepted. -/
structure WriteBursts : Prop where
  answered : ∀ a, AcceptsWrite r a → WriteAnswered r a
  calls : ∀ t, ((r.st t).pmemWrite (r.inp t)).isSome = wFire (r.inp t).io (r.st t).ioIn
  takesOnly : ∀ t, (r.st t).ioIn.wReady = true → ∃ a < t, AcceptsWrite r a ∧ lasts r a t = 0
  answersOnly : ∀ t, (r.st t).ioIn.b.valid = true →
    ∃ a < t, AcceptsWrite r a ∧ lasts r a t ≠ 0 ∧ responses r a t = 0

variable {r} {a t : ℕ}

/-- A write address is taken in `s_idle` only. -/
theorem wIdle_of_accepts (h : AcceptsWrite r t) : (r.st t).wState = .idle := by
  simpa [awFire, ioIn] using (Bool.and_eq_true_iff.mp h).2

/-- Nothing is taken before the write is over. -/
theorem not_acceptsWrite (h : (r.st t).wState ≠ .idle) : ¬ AcceptsWrite r t :=
  fun ha => h (wIdle_of_accepts ha)

/-- Data are taken in `s_data` only. -/
theorem wData_of_wFire (h : wFire (r.inp t).io (r.st t).ioIn = true) :
    (r.st t).wState = .data := by
  simpa [wFire, ioIn] using (Bool.and_eq_true_iff.mp h).2

/-- A response is given in `s_resp` only. -/
theorem wResp_of_bFire (h : bFire (r.inp t).io (r.st t).ioIn = true) :
    (r.st t).wState = .resp := by
  simpa [bFire, ioIn] using (Bool.and_eq_true_iff.mp h).1

/-- The phase the state of a write stands for. -/
def phaseOf : DPICWriteState → Phase
  | .idle => .idle
  | .data => .running
  | .resp => .ended

/-- A phase has one state. -/
theorem phaseOf_inj {w w' : DPICWriteState} (h : phaseOf w = phaseOf w') : w = w' := by
  cases w <;> cases w' <;> first | rfl | exact absurd h (by decide)

/-- The slave is a write transaction at a time. -/
theorem transacts (r : machine.Run) : Transacts (fun t => phaseOf (r.st t).wState)
    (fun t => awFire (r.inp t).io (r.st t).ioIn) (fun t => wLastFire (r.inp t).io (r.st t).ioIn)
    (fun t => bFire (r.inp t).io (r.st t).ioIn) where
  step := fun t => by
    rw [r.step t]
    cases hw : (r.st t).wState with
    | idle =>
        cases hf : awFire (r.inp t).io (r.st t).ioIn <;>
          simp [machine, next, hw, hf, phaseOf, Phase.next]
    | data =>
        cases hf : wLastFire (r.inp t).io (r.st t).ioIn <;>
          simp [machine, next, hw, hf, phaseOf, Phase.next]
    | resp =>
        cases hf : bFire (r.inp t).io (r.st t).ioIn <;>
          simp [machine, next, hw, hf, phaseOf, Phase.next]
  start_idle := fun t h => by rw [wIdle_of_accepts h]; rfl
  stop_running := fun t h => by rw [wData_of_wFire (Bool.and_eq_true_iff.mp h).1]; rfl
  answer_ended := fun t h => by rw [wResp_of_bFire h]; rfl

/-- The state of the write accepted in `a`, by what has happened since. -/
theorem wState_of_accepts (h : AcceptsWrite r a) (hlt : a < t) :
    (lasts r a t = 0 → (r.st t).wState = .data) ∧
      (lasts r a t ≠ 0 → responses r a t = 0 → (r.st t).wState = .resp) ∧
      (responses r a t ≠ 0 → (∀ u, a < u → u < t → ¬ AcceptsWrite r u) →
        (r.st t).wState = .idle) := by
  have hp := (transacts r).since h t hlt
  refine ⟨fun hl => ?_, fun hl hr => ?_, fun hr hno => ?_⟩
  · exact phaseOf_inj (hp.running hl).1
  · exact phaseOf_inj (hp.ended hl hr)
  · exact phaseOf_inj (hp.done hr hno)

/-- The registers of the write accepted in `a`, until its response is taken. -/
structure Writing (r : machine.Run) (a t : ℕ) : Prop where
  wCtx : (r.st t).wCtx = writeAddress r a
  wAddr : lasts r a t = 0 → (r.st t).wAddr = burstAddr (writeAddress r a).addr
    (writeAddress r a).size (writeAddress r a).burst (wBeats r a t)

/-- A write that has been taken is served from the next cycle on. -/
theorem writing_start (h : AcceptsWrite r a) : Writing r a (a + 1) := by
  have hfire : awFire (r.inp a).io (r.st a).ioIn = true := h
  have hb : wBeats r a (a + 1) = 0 := count_self _ _
  constructor
  · rw [r.step a]
    simp [machine, next, hfire]
  · intro _
    rw [r.step a, hb, burstAddr_zero]
    simp [machine, next, wNextAddr, hfire]

/-- It stays so unless the next one is taken. -/
theorem Writing.step (h : Writing r a t) (hlt : a < t) (hno : ¬ AcceptsWrite r t) :
    Writing r a (t + 1) := by
  have haw : awFire (r.inp t).io (r.st t).ioIn = false := by simpa [AcceptsWrite] using hno
  have hb : wBeats r a (t + 1) = wBeats r a t + (wFire (r.inp t).io (r.st t).ioIn).toNat :=
    count_succ _ hlt
  constructor
  · rw [r.step t]
    simp [machine, next, haw, h.wCtx]
  · intro hl
    have hl' : lasts r a t = 0 := ((count_succ_eq_zero_iff _ hlt).mp hl).1
    rw [r.step t, hb]
    show (r.st t).wNextAddr (r.inp t) = _
    rw [wNextAddr, haw, if_neg (by decide), h.wAddr hl', h.wCtx]
    cases wFire (r.inp t).io (r.st t).ioIn with
    | false => rfl
    | true => exact computeNextAddr_burstAddr ..

/-- A write is served until its response. -/
theorem writing (h : AcceptsWrite r a) : ∀ t, a < t → responses r a t = 0 → Writing r a t := by
  intro t
  induction t with
  | zero => intro hlt; omega
  | succ t ih =>
      intro hlt hr
      rcases Nat.lt_or_ge a t with hat | hat
      · have hr' : responses r a t = 0 := ((count_succ_eq_zero_iff _ hat).mp hr).1
        have hst := wState_of_accepts h hat
        refine (ih hat hr').step hat (not_acceptsWrite ?_)
        by_cases hl : lasts r a t = 0
        · rw [hst.1 hl]
          decide
        · rw [hst.2.1 hl hr']
          decide
      · rw [show t = a by omega]
        exact writing_start h

/-- A call is made for each data beat that is taken, and for nothing else. -/
theorem pmemWrite_eq (d : DPICMem) (i : DPICMemIn) : d.pmemWrite i =
    if wFire i.io d.ioIn then some ⟨d.wAddr, i.io.w.bits.data, i.io.w.bits.strb.setWidth 8⟩
    else none := by
  have hready : wFire i.io d.ioIn = (i.io.w.valid && decide (d.wState = .data)) := rfl
  rw [pmemWrite, hready]
  cases decide (d.wState = .data) <;> simp

/-- A write is answered by one response after its last beat. -/
theorem writeAnswered (h : AcceptsWrite r a) : WriteAnswered r a where
  takes := fun t hlt hl => by
    have hw := (wState_of_accepts h hlt).1 hl
    have hr := (((transacts r).since h t hlt).running hl).2
    refine ⟨by simp [ioIn, hw], by simp [ioIn, hw], not_acceptsWrite (by simp [hw]),
      fun hv => ?_⟩
    have hfire : wFire (r.inp t).io (r.st t).ioIn = true := by simp [wFire, ioIn, hw, hv]
    rw [pmemWrite_eq, hfire, if_pos rfl, (writing h t hlt hr).wAddr hl]
    rfl
  answers := fun t hlt hl hr => by
    have hw := (wState_of_accepts h hlt).2.1 hl hr
    exact ⟨by simp [ioIn, hw], rfl, congrArg WriteAddressChannel.id (writing h t hlt hr).wCtx,
      by simp [ioIn, hw], not_acceptsWrite (by simp [hw])⟩
  once := fun t hlt hr hno => by
    have hw := (wState_of_accepts h hlt).2.2 hr hno
    exact ⟨by simp [ioIn, hw], by simp [ioIn, hw]⟩

/-- What is not idle belongs to a write that was accepted and not yet answered. -/
theorem exists_acceptsWrite (r : machine.Run) (t : ℕ) (hbusy : (r.st t).wState ≠ .idle) :
    ∃ a < t, AcceptsWrite r a ∧ responses r a t = 0 := by
  have h0 : phaseOf (r.st 0).wState = .idle := by rw [r.start.wState]; rfl
  obtain ⟨a, hlt, ha, hno⟩ := (transacts r).exists_start h0 t fun hidle =>
    hbusy (phaseOf_inj hidle)
  refine ⟨a, hlt, ha, ?_⟩
  by_contra hr
  exact hbusy ((wState_of_accepts ha hlt).2.2 hr hno)

/-- Every write is answered. -/
theorem writeBursts (r : machine.Run) : WriteBursts r where
  answered := fun a ha => writeAnswered ha
  calls := fun t => by
    rw [pmemWrite_eq]
    cases wFire (r.inp t).io (r.st t).ioIn <;> rfl
  takesOnly := fun t hready => by
    have hw : (r.st t).wState = .data := by simpa [ioIn] using hready
    obtain ⟨a, hlt, ha, hr⟩ := exists_acceptsWrite r t (by rw [hw]; decide)
    refine ⟨a, hlt, ha, ?_⟩
    by_contra hl
    rw [(wState_of_accepts ha hlt).2.1 hl hr] at hw
    exact absurd hw (by decide)
  answersOnly := fun t hv => by
    have hw : (r.st t).wState = .resp := by simpa [ioIn] using hv
    obtain ⟨a, hlt, ha, hr⟩ := exists_acceptsWrite r t (by rw [hw]; decide)
    refine ⟨a, hlt, ha, fun hl => ?_, hr⟩
    rw [(wState_of_accepts ha hlt).1 hl] at hw
    exact absurd hw (by decide)

end Writes

/-! ## Reads and writes -/

section Apart

variable (r : machine.Run)

/-- What the slave shows a reader: ready for an address, and the beat it offers if any. -/
def readSide (t : ℕ) : Bool × Option ReadDataChannel :=
  ((r.st t).ioIn.arReady, if (r.st t).ioIn.r.valid then some (r.st t).ioIn.r.bits else none)

/-- What it shows a writer, with the call it makes. -/
def writeSide (t : ℕ) : Bool × Bool × Option WriteResponseChannel × Option PMemWrite :=
  ((r.st t).ioIn.awReady, (r.st t).ioIn.wReady,
    (if (r.st t).ioIn.b.valid then some (r.st t).ioIn.b.bits else none),
    (r.st t).pmemWrite (r.inp t))

/-- **The statement that the sides do not disturb each other**: a run with the same reads and the
same memory shows the same to its reader, and one with the same writes to its writer. -/
structure Undisturbed : Prop where
  reads : ∀ r' : machine.Run,
    (∀ t, (r'.inp t).io.ar = (r.inp t).io.ar ∧ (r'.inp t).io.rReady = (r.inp t).io.rReady ∧
      (r'.inp t).pmemRead = (r.inp t).pmemRead) →
    ∀ t, readSide r' t = readSide r t
  writes : ∀ r' : machine.Run,
    (∀ t, (r'.inp t).io.aw = (r.inp t).io.aw ∧ (r'.inp t).io.w = (r.inp t).io.w ∧
      (r'.inp t).io.bReady = (r.inp t).io.bReady) →
    ∀ t, writeSide r' t = writeSide r t

/-- Two memories whose registers for reads agree, as far as they are used. -/
structure SameReads (d d' : DPICMem) : Prop where
  rState : d'.rState = d.rState
  busy : d.rState = .dataValid →
    d'.rCtx = d.rCtx ∧ d'.rAddr = d.rAddr ∧ d'.rCnt = d.rCnt ∧ d'.memReadOut = d.memReadOut

/-- The registers of the write half agree, its address and context while it is busy. -/
structure SameWrites (d d' : DPICMem) : Prop where
  wState : d'.wState = d.wState
  busy : d.wState ≠ .idle → d'.wCtx = d.wCtx ∧ d'.wAddr = d.wAddr

variable {d d' : DPICMem} {i i' : DPICMemIn}

/-- The read channel depends on its own inputs only. -/
theorem SameReads.next (h : SameReads d d') (har : i'.io.ar = i.io.ar)
    (hready : i'.io.rReady = i.io.rReady) (hmem : i'.pmemRead = i.pmemRead) :
    SameReads (d.next i) (d'.next i') := by
  have hfire : arFire i'.io d'.ioIn = arFire i.io d.ioIn := by
    simp only [arFire, ioIn, h.rState, har]
  have hr : rFire i'.io d'.ioIn = rFire i.io d.ioIn := by
    simp only [rFire, ioIn, h.rState, hready]
  cases hs : d.rState with
  | idle =>
      have hs' : d'.rState = .idle := h.rState.trans hs
      cases hf : arFire i.io d.ioIn with
      | false =>
          rw [hf] at hfire
          exact ⟨by simp [DPICMem.next, hs, hs', hf, hfire],
            fun hbusy => absurd hbusy (by simp [DPICMem.next, hs, hf])⟩
      | true =>
          rw [hf] at hfire
          refine ⟨by simp [DPICMem.next, hs, hs', hf, hfire], fun _ => ⟨?_, ?_, ?_, ?_⟩⟩
          · simp [DPICMem.next, hf, hfire, har]
          · simp [DPICMem.next, rNextAddr, hf, hfire, har]
          · simp [DPICMem.next, hf, hfire]
          · simp [DPICMem.next, memReadEn, rNextAddr, hs, hs', hf, hfire, har, hmem]
  | dataValid =>
      have hs' : d'.rState = .dataValid := h.rState.trans hs
      obtain ⟨hctx, haddr, hcnt, -⟩ := h.busy hs
      have hlast : rLastFire i'.io d'.ioIn = rLastFire i.io d.ioIn := by
        rw [rLastFire, rLastFire, hr]
        simp only [ioIn, hcnt, hctx]
      have hnext : d'.rNextAddr i' = d.rNextAddr i := by
        simp only [rNextAddr, hfire, hr, har, haddr, hctx]
      refine ⟨by simp [DPICMem.next, hs, hs', hlast], fun _ => ⟨?_, hnext, ?_, ?_⟩⟩
      · simp [DPICMem.next, hfire, har, hctx]
      · simp [DPICMem.next, hfire, hr, hcnt]
      · simp [DPICMem.next, memReadEn, hs, hs', hfire, hlast, hnext, hmem]

/-- The write channel depends on its own inputs only. -/
theorem SameWrites.next (h : SameWrites d d') (haw : i'.io.aw = i.io.aw)
    (hw : i'.io.w = i.io.w) (hready : i'.io.bReady = i.io.bReady) :
    SameWrites (d.next i) (d'.next i') := by
  have hfire : awFire i'.io d'.ioIn = awFire i.io d.ioIn := by
    simp only [awFire, ioIn, h.wState, haw]
  have hwf : wFire i'.io d'.ioIn = wFire i.io d.ioIn := by
    simp only [wFire, ioIn, h.wState, hw]
  have hlast : wLastFire i'.io d'.ioIn = wLastFire i.io d.ioIn := by
    simp only [wLastFire, hwf, hw]
  have hb : bFire i'.io d'.ioIn = bFire i.io d.ioIn := by
    simp only [bFire, ioIn, h.wState, hready]
  constructor
  · simp [DPICMem.next, h.wState, hfire, hlast, hb]
  · intro hbusy
    by_cases hs : d.wState = .idle
    · have hf : awFire i.io d.ioIn = true := by
        by_contra hno
        simp [DPICMem.next, hs, hno] at hbusy
      rw [hf] at hfire
      exact ⟨by simp [DPICMem.next, hf, hfire, haw],
        by simp [DPICMem.next, wNextAddr, hf, hfire, haw]⟩
    · obtain ⟨hctx, haddr⟩ := h.busy hs
      exact ⟨by simp [DPICMem.next, hfire, haw, hctx],
        by simp [DPICMem.next, wNextAddr, hfire, hwf, haw, hctx, haddr]⟩

/-- Neither channel disturbs the other. -/
theorem undisturbed (r : machine.Run) : Undisturbed r where
  reads := fun r' hsame => by
    have hall : ∀ t, SameReads (r.st t) (r'.st t) := by
      intro t
      induction t with
      | zero =>
          have h0 := r.start.rState
          exact ⟨r'.start.rState.trans h0.symm, fun hbusy => absurd (h0.symm.trans hbusy) (by decide)⟩
      | succ t ih =>
          rw [r.step t, r'.step t]
          exact ih.next (hsame t).1 (hsame t).2.1 (hsame t).2.2
    intro t
    have ht := hall t
    cases hs : (r.st t).rState with
    | idle => simp [readSide, ioIn, ht.rState, hs]
    | dataValid =>
        obtain ⟨hctx, -, hcnt, hout⟩ := ht.busy hs
        simp [readSide, ioIn, ht.rState, hs, hctx, hcnt, hout]
  writes := fun r' hsame => by
    have hall : ∀ t, SameWrites (r.st t) (r'.st t) := by
      intro t
      induction t with
      | zero =>
          have h0 := r.start.wState
          exact ⟨r'.start.wState.trans h0.symm, fun hbusy => absurd h0 hbusy⟩
      | succ t ih =>
          rw [r.step t, r'.step t]
          exact ih.next (hsame t).1 (hsame t).2.1 (hsame t).2.2
    intro t
    have ht := hall t
    obtain ⟨-, hw, -⟩ := hsame t
    cases hs : (r.st t).wState with
    | idle => simp [writeSide, ioIn, pmemWrite, ht.wState, hs]
    | data =>
        obtain ⟨hctx, haddr⟩ := ht.busy (by rw [hs]; decide)
        simp [writeSide, ioIn, pmemWrite, wFire, ht.wState, hs, haddr, hw]
    | resp =>
        obtain ⟨hctx, haddr⟩ := ht.busy (by rw [hs]; decide)
        simp [writeSide, ioIn, pmemWrite, ht.wState, hs, hctx]

/-- **The bursts of the memory**, under every master and every memory. -/
theorem answersBursts (r : machine.Run) : ReadBursts r ∧ WriteBursts r ∧ Undisturbed r :=
  ⟨readBursts r, writeBursts r, undisturbed r⟩

end Apart

end DPICMem

end Bailuwan
