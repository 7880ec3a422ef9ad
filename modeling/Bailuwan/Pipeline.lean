/-
# The pipeline registers

What one cycle does to the registers between the stages, and the invariant of the last
two of them: the load and store unit is idle whenever write-back holds an instruction,
and it holds an instruction, of the kind its state says, whenever it is not idle.
-/
import Bailuwan.Core

namespace Bailuwan

open Synchronous AXI4

/-! ## A pipeline register -/

section PipelineConnect

variable {α : Type*} {reg : Valid α} {prev : Option α} {ready invalidate bubble : Bool}

/-- A stage that is not ready keeps its register. -/
theorem pipelineConnect_of_not_ready :
    (pipelineConnect reg prev false invalidate bubble).bits = reg.bits := by
  cases prev <;> rfl

end PipelineConnect

/-! ## The load and store unit -/

namespace LSU

/-- A unit in a transaction holds an instruction of the transaction's kind. -/
def Serves (u : LSU) (b : EXUOut) : Prop :=
  match u.state with
  | .rAddr | .rWaitMem => entryState b = .rAddr
  | .wAddr | .wData | .wWaitMem => entryState b = .wAddr
  | .idle | .waitReady => True

variable {u : LSU} {x : Valid EXUOut} {m : AXI4.In}

/-- A unit that has its answer is ready for the next instruction. -/
theorem inReady_of_waitReady (h : u.state = .waitReady) : u.inReady x true = true := by
  simp [inReady, h]

/-- An idle unit is ready if it holds nothing. -/
theorem inReady_of_idle (h : u.state = .idle) : u.inReady x true = !x.valid := by
  simp [inReady, h]

/-- A busy unit is not ready. -/
theorem inReady_of_busy (h : u.state ≠ .idle) (h' : u.state ≠ .waitReady) :
    u.inReady x true = false := by
  simp [inReady, h, h']

/-- An instruction leaves in `wait_ready`. -/
theorem outValid_eq : u.outValid = decide (u.state = .waitReady) := rfl

/-- An instruction with an exception has no memory operation. -/
theorem entryState_of_exception {b : EXUOut} (h : b.exception.valid = true) :
    entryState b = .waitReady := by
  simp [entryState, reqOp, h]

/-- An instruction begins with its address or at the end. -/
theorem entryState_cases (b : EXUOut) :
    entryState b = .waitReady ∨ entryState b = .rAddr ∨ entryState b = .wAddr := by
  simp only [entryState]
  split <;> simp

/-! ### What a cycle leads to -/

variable {flush ready : Bool}

/-- From the idle state a unit does not go to a state in which it waits for an answer or has sent
half of a write. -/
theorem nextState_of_idle (h : u.state = .idle) {s : LSUState}
    (hs : s = .rWaitMem ∨ s = .wData ∨ s = .wWaitMem) : u.nextState x m flush ready ≠ s := by
  simp only [nextState, h]
  rcases hs with rfl | rfl | rfl <;> split_ifs <;>
    rcases entryState_cases x.bits with he | he | he <;> simp [he]

/-- An address is taken in `r_addr` only. -/
theorem arFire_memOut : arFire (u.memOut x) m = (decide (u.state = .rAddr) && m.arReady) := rfl

/-- A write address is taken in `w_addr` only. -/
theorem awFire_memOut : awFire (u.memOut x) m = (decide (u.state = .wAddr) && m.awReady) := rfl

/-- Data are taken in `w_addr` and `w_data` only. -/
theorem wFire_memOut : wFire (u.memOut x) m =
    ((decide (u.state = .wAddr) || decide (u.state = .wData)) && m.wReady) := rfl

/-- A response is taken in `w_wait_mem` only. -/
theorem bFire_memOut : bFire (u.memOut x) m = (m.b.valid && decide (u.state = .wWaitMem)) := rfl

/-- A read waits for the memory from its address on, until it is answered. -/
theorem nextState_eq_rWaitMem : u.nextState x m flush ready = .rWaitMem ↔
    arFire (u.memOut x) m = true ∨ u.state = .rWaitMem ∧ rFire (u.memOut x) m = false := by
  cases hst : u.state with
  | idle =>
      have hne : u.nextState x m flush ready ≠ .rWaitMem := nextState_of_idle hst (.inl rfl)
      simp [hne, arFire_memOut, hst]
  | rAddr | rWaitMem => simp [nextState, arFire_memOut, hst]
  | wAddr | wData | wWaitMem | waitReady =>
      simp only [nextState, arFire_memOut, hst]
      split_ifs <;> simp

/-- A write is begun by its address, and goes on until it is answered. -/
theorem nextState_writes : u.nextState x m flush ready = .wData ∨
      u.nextState x m flush ready = .wWaitMem ↔
    awFire (u.memOut x) m = true ∨
      (u.state = .wData ∨ u.state = .wWaitMem) ∧ bFire (u.memOut x) m = false := by
  cases hst : u.state with
  | idle =>
      have hd : u.nextState x m flush ready ≠ .wData := nextState_of_idle hst (.inr (.inl rfl))
      have hw : u.nextState x m flush ready ≠ .wWaitMem := nextState_of_idle hst (.inr (.inr rfl))
      simp [hd, hw, awFire_memOut, hst]
  | wAddr =>
      simp only [nextState, hst]
      cases awFire (u.memOut x) m <;> cases wFire (u.memOut x) m <;> simp
  | wWaitMem =>
      simp only [nextState, awFire_memOut, hst]
      cases bFire (u.memOut x) m <;> simp
  | rAddr | rWaitMem | wData | waitReady =>
      simp only [nextState, awFire_memOut, bFire_memOut, hst]
      split_ifs <;> simp

/-- A write waits for the memory when both its address and its data are accepted. -/
theorem nextState_eq_wWaitMem : u.nextState x m flush ready = .wWaitMem ↔
    wFire (u.memOut x) m = true ∧ (u.state = .wData ∨ awFire (u.memOut x) m = true) ∨
      u.state = .wWaitMem ∧ bFire (u.memOut x) m = false := by
  cases hst : u.state with
  | idle =>
      have hne : u.nextState x m flush ready ≠ .wWaitMem := nextState_of_idle hst (.inr (.inr rfl))
      simp [hne, wFire_memOut, hst]
  | wAddr =>
      simp only [nextState, hst]
      cases awFire (u.memOut x) m <;> cases wFire (u.memOut x) m <;> simp
  | wData | wWaitMem => simp [nextState, wFire_memOut, hst]
  | rAddr | rWaitMem | waitReady =>
      simp only [nextState, wFire_memOut, hst]
      split_ifs <;> simp

end LSU

namespace Core

variable {c : Core} {io : In}

/-! ## The invariant -/

/-- What holds of the pipeline in every cycle: nothing is in the unit when an instruction is in WBU,
the unit works on the instruction in front of it, and only on an access. -/
structure PipelineInv (c : Core) : Prop where
  drained : c.wbuIn.valid = true → c.lsu.state = .idle
  held : c.lsu.state ≠ .idle → c.lsuIn.valid = true
  serves : c.lsu.Serves c.lsuIn.bits

/-- After reset the pipeline is empty. -/
theorem PipelineInv.of_reset (h : c.IsReset) : PipelineInv c where
  drained hv := by simp [h.wbuIn] at hv
  held hs := absurd h.lsu.state hs
  serves := by simp [LSU.Serves, h.lsu.state]

/-- Write-back is empty while a transaction runs, so nothing is flushed then. -/
theorem PipelineInv.wbuFlush_of_busy (h : PipelineInv c) (hs : c.lsu.state ≠ .idle) :
    c.wbuFlush = false := by
  have hv : c.wbuIn.valid = false := by
    by_contra hv
    exact hs (h.drained (by simpa using hv))
  simp [wbuFlush, WBU.redirectValid, hv]

/-- A flush finds the load and store unit idle. -/
theorem PipelineInv.idle_of_wbuFlush (h : PipelineInv c) (hf : c.wbuFlush = true) :
    c.lsu.state = .idle := by
  by_contra hs
  rw [h.wbuFlush_of_busy hs] at hf
  exact absurd hf (by decide)

theorem next_lsu_state : (c.next io).lsu.state =
    c.lsu.nextState c.lsuIn (c.lsuMem io) c.wbuFlush true := rfl

/-- The write back stage gets what leaves the load and store unit. -/
theorem next_wbuIn_valid :
    (c.next io).wbuIn.valid = (!c.wbuFlush && decide (c.lsu.state = .waitReady)) := by
  have h : (c.next io).wbuIn.valid = if c.wbuFlush then false else c.lsuOut.isSome := rfl
  rw [h, lsuOut, LSU.outValid_eq]
  cases c.wbuFlush <;> by_cases hs : c.lsu.state = .waitReady <;> simp [hs]

/-- The write back stage gets the results of the load and store unit. -/
theorem next_wbuIn_bits (hs : c.lsu.state = .waitReady) :
    (c.next io).wbuIn.bits = c.lsu.bits c.lsuIn.bits := by
  have h : c.lsuOut = some (c.lsu.bits c.lsuIn.bits) := by simp [lsuOut, LSU.outValid_eq, hs]
  simp only [next, h]
  rfl

/-- The load and store unit gets what leaves the execution unit, unless there is a flush. -/
theorem next_lsuIn_valid : (c.next io).lsuIn.valid =
    if c.wbuFlush then false else if c.lsuInReady then c.exuIn.valid else c.lsuIn.valid := by
  have h : c.exuOut.isSome = c.exuIn.valid := by
    cases hv : c.exuIn.valid <;> simp [exuOut, hv]
  rw [← h]
  rfl

/-- The load and store unit keeps what it holds while it is not ready. -/
theorem next_lsuIn_of_not_ready (hr : c.lsuInReady = false) :
    (c.next io).lsuIn.bits = c.lsuIn.bits := by
  simp only [next, hr]
  exact pipelineConnect_of_not_ready

/-- The load and store unit gets the results of the execution unit. -/
theorem next_lsuIn_of_exuFire (hf : c.exuFire = true) :
    (c.next io).lsuIn.bits = EXU.bits c.exuIn.bits c.csrRsData := by
  obtain ⟨hv, hr⟩ := Bool.and_eq_true_iff.mp hf
  have h : c.exuOut = some (EXU.bits c.exuIn.bits c.csrRsData) := by simp [exuOut, hv]
  simp only [next, h, hr]
  rfl

/-- The execution unit gets what leaves the decoder, unless there is a flush or a stall. -/
theorem next_exuIn_valid : (c.next io).exuIn.valid =
    if c.wbuFlush then false
    else if c.lsuInReady then !c.exuFlush && (c.iduIn.valid && !c.hazardStall)
    else c.exuIn.valid := by
  have h : c.iduOut.isSome = (c.iduIn.valid && !c.hazardStall) := by
    cases hv : c.iduIn.valid && !c.hazardStall <;> simp [iduOut, hv]
  rw [← h]
  rfl

/-- The execution unit keeps what it holds while the unit below is not ready. -/
theorem next_exuIn_of_not_ready (hr : c.lsuInReady = false) :
    (c.next io).exuIn.bits = c.exuIn.bits := by
  simp only [next, hr]
  exact pipelineConnect_of_not_ready

/-- The decoder hands its instruction over. -/
def iduFire (c : Core) : Bool := c.iduIn.valid && !c.hazardStall && c.lsuInReady

/-- The execution unit gets what is decoded, with its operands. -/
theorem next_exuIn_of_iduFire {i : In} (hf : c.iduFire = true) :
    (c.next i).exuIn.bits = IDU.bits c.hazards c.iduIn.bits
      (c.regFile.read (IDU.rs1 c.iduIn.bits.inst)) (c.regFile.read (IDU.rs2 c.iduIn.bits.inst)) := by
  obtain ⟨hv, hr⟩ := Bool.and_eq_true_iff.mp hf
  have h : c.iduOut = some (IDU.bits c.hazards c.iduIn.bits
      (c.regFile.read (IDU.rs1 c.iduIn.bits.inst))
      (c.regFile.read (IDU.rs2 c.iduIn.bits.inst))) := by simp only [iduOut, hv, if_true]
  simp only [next, h, hr]
  rfl

/-- The decoder gets what the fetch unit delivers, unless there is a flush. -/
theorem next_iduIn_valid : (c.next io).iduIn.valid =
    if c.wbuFlush || c.exuFlush then false
    else if c.iduInReady then (c.ifu.out (c.ifuIn io)).isSome else c.iduIn.valid := rfl

/-- The decoder keeps what it holds while it is not ready. -/
theorem next_iduIn_of_not_ready (hr : c.iduInReady = false) :
    (c.next io).iduIn.bits = c.iduIn.bits := by
  simp only [next, hr]
  exact pipelineConnect_of_not_ready

/-- The decoder gets what is delivered. -/
theorem next_iduIn_of_delivers {o : IFUOut} (ho : c.ifu.delivers (c.ifuIn io) = some o) :
    (c.next io).iduIn.bits = o := by
  simp only [IFU.delivers] at ho
  split_ifs at ho with hr
  have hr' : c.iduInReady = true := hr
  simp only [next, ho, hr']
  rfl

/-- **One cycle keeps the invariant.** -/
theorem PipelineInv.next (h : PipelineInv c) : PipelineInv (c.next io) := by
  refine ⟨fun hv => ?_, fun hs => ?_, ?_⟩
  · -- what is in write-back now left the unit, which went back to idle
    rw [next_wbuIn_valid, Bool.and_eq_true, decide_eq_true_eq] at hv
    simp [next_lsu_state, LSU.nextState, LSU.outFire, LSU.outValid_eq, hv.2]
  · rw [next_lsu_state] at hs
    cases hst : c.lsu.state with
    | idle =>
        -- the unit starts on the instruction in front of it, which stays there
        simp only [LSU.nextState, hst] at hs
        have hgo : c.lsuIn.valid = true ∧ c.wbuFlush = false := by
          by_contra hno
          rw [not_and_or, Bool.not_eq_true, Bool.not_eq_false] at hno
          rcases hno with hno | hno <;> simp [hno] at hs
        have hr : c.lsuInReady = false := by
          rw [lsuInReady, LSU.inReady_of_idle hst, hgo.1]
          rfl
        rw [next_lsuIn_valid, hgo.2, hr]
        exact hgo.1
    | waitReady => simp [LSU.nextState, hst, LSU.outFire, LSU.outValid_eq] at hs
    | rAddr | rWaitMem | wAddr | wData | wWaitMem =>
        have hb : c.lsu.state ≠ .idle := by simp [hst]
        have hr : c.lsuInReady = false := LSU.inReady_of_busy hb (by simp [hst])
        rw [next_lsuIn_valid, h.wbuFlush_of_busy hb, hr]
        exact h.held hb
  · have hserves := h.serves
    have hkeep : c.lsuInReady = false → (c.next io).lsuIn.bits = c.lsuIn.bits :=
      next_lsuIn_of_not_ready
    cases hst : c.lsu.state with
    | idle =>
        cases hgo : c.lsuIn.valid && !c.wbuFlush with
        | false => simp [LSU.Serves, next_lsu_state, LSU.nextState, hst, hgo]
        | true =>
            have hv := (Bool.and_eq_true_iff.mp hgo).1
            rw [hkeep (by rw [lsuInReady, LSU.inReady_of_idle hst, hv]; rfl)]
            simp only [LSU.Serves, next_lsu_state, LSU.nextState, hst, hgo, if_true]
            cases he : LSU.entryState c.lsuIn.bits <;> simp
            all_goals
              simp only [LSU.entryState] at he
              split at he <;> cases he
    | waitReady => simp [LSU.Serves, next_lsu_state, LSU.nextState, hst, LSU.outFire,
        LSU.outValid_eq]
    | rAddr | rWaitMem | wAddr | wData | wWaitMem =>
        have hr : c.lsuInReady = false := LSU.inReady_of_busy (by simp [hst]) (by simp [hst])
        rw [hkeep hr]
        simp only [LSU.Serves, hst] at hserves
        simp only [LSU.Serves, next_lsu_state, LSU.nextState, hst]
        split_ifs <;> first | exact hserves | trivial

/-- The invariant holds in every run. -/
theorem pipelineInv (r : machine.Run) (t : ℕ) : PipelineInv (r.st t) :=
  r.invariant (fun _ => PipelineInv) (fun _ => PipelineInv.of_reset) (fun _ => PipelineInv.next) t

/-! ## What the execution stage holds -/

/-- The instruction in front of the execution stage came out of the decoder. -/
def Decoded (c : Core) : Prop :=
  c.exuIn.valid = true → ∃ hazards o d1 d2, c.exuIn.bits = IDU.bits hazards o d1 d2

/-- A cycle keeps what is decoded. -/
theorem Decoded.next (h : Decoded c) : Decoded (c.next io) := by
  intro hv
  rw [next_exuIn_valid] at hv
  cases hf : c.wbuFlush with
  | true => simp [hf] at hv
  | false =>
      cases hr : c.lsuInReady with
      | false =>
          rw [next_exuIn_of_not_ready hr]
          rw [hf, hr] at hv
          exact h hv
      | true =>
          simp only [hf, hr, Bool.false_eq_true, if_false, if_true, Bool.and_eq_true] at hv
          exact ⟨_, _, _, _, next_exuIn_of_iduFire (by simp [iduFire, hr, hv.2.1, hv.2.2])⟩

/-- What the execution unit holds is decoded, in every run. -/
theorem decoded (r : machine.Run) (t : ℕ) : Decoded (r.st t) :=
  r.invariant (fun _ => Decoded) (fun _ h hv => by simp [h.exuIn] at hv) (fun _ => Decoded.next) t

end Core

end Bailuwan
