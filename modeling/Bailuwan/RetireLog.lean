/-
# The retired instructions

What the core does to the outside is logged as `Event`s: the address and the data of a
store when the bus accepts them from the load and store unit, and the instruction with
its destination when write-back takes it.  The reference model has the same events, for
one instruction after the other.

The log of every run is a prefix of the events of the reference model (`refines`).
-/
import Bailuwan.Refinement

namespace Bailuwan

open Synchronous AXI4 Nemu

/-! ## Events -/

/-- The address of a store, its data and strobe, and the retirement of an instruction
with the register it writes and the value. -/
inductive Event
  | address (a : Word)
  | data (beat : WriteDataChannel)
  | retire (pc : Word) (rd : Option (BitVec 5 × Word))
  deriving DecidableEq, Repr

/-- The events of a store. -/
def storeEvents : Option Store → List Event
  | some st => [.address st.addr, .data (storeBeat st.addr st.len st.data)]
  | none => []

namespace Nemu

/-- The events of the store of the next instruction. -/
def CPU.storeEvents (s : CPU) : List Event :=
  (decodeExec s).elim [] fun e => Bailuwan.storeEvents e.store

/-- The events of the next instruction; a write to `x0` writes nothing. -/
def CPU.events (s : CPU) : List Event :=
  s.storeEvents ++ (decodeExec s).elim [] fun e =>
    [.retire s.pc (e.rd.filter fun w => decide (w.1 ≠ 0))]

/-- A store is written, and then the instruction retires. -/
theorem length_storeEvents (s : CPU) : s.storeEvents.length ≤ 2 := by
  unfold CPU.storeEvents
  cases decodeExec s with
  | none => simp
  | some e => cases h : e.store <;> simp [Bailuwan.storeEvents, h]

end Nemu

namespace Core

/-- The register that write-back writes. -/
def written (c : Core) : Option (BitVec 5 × Word) :=
  if WBU.rdWe c.wbuIn && decide (c.wbuIn.bits.rdAddr ≠ 0) then
    some (c.wbuIn.bits.rdAddr, c.wbuIn.bits.lsOut)
  else none

/-- The events of a cycle of the core. -/
def emit (c : Core) (io : In) : List Event :=
  (if c.wbuIn.valid then [.retire c.wbuIn.bits.pc c.written] else []) ++
    (if awFire (c.lsu.memOut c.lsuIn) (c.lsuMem io) then
      [.address (c.lsu.memOut c.lsuIn).aw.bits.addr] else []) ++
    if wFire (c.lsu.memOut c.lsuIn) (c.lsuMem io) then [.data (c.lsu.memOut c.lsuIn).w.bits]
    else []

/-! ## One cycle -/

variable {init : Bytes} {p : Program init} {c : Core} {io : In} {m : Memory} {n : ℕ}

/-- The number of events of its store that the oldest instruction has had. -/
def storeProgress (c : Core) : ℕ :=
  if c.accessed then 2 else if c.lsu.state = .wData then 1 else 0

namespace Sim

/-- What write-back retires is the next instruction of the reference model. -/
theorem emit_of_retire (h : Sim p c m n) (hv : c.wbuIn.valid = true) :
    (reference init n).storeEvents.take c.storeProgress ++ c.emit io =
      (reference init n).events := by
  have hacc : c.storeProgress = 2 := by simp [storeProgress, accessed, hv]
  have hidle := h.pipeline.drained hv
  have haw : awFire (c.lsu.memOut c.lsuIn) (c.lsuMem io) = false := by
    simp [awFire, LSU.memOut, hidle]
  have hw : wFire (c.lsu.memOut c.lsuIn) (c.lsuMem io) = false := by
    simp [wFire, LSU.memOut, hidle]
  have hretire := h.wbuIn hv
  obtain ⟨e, he, hrd⟩ := hretire.effect
  have hwritten : c.written = e.rd.filter fun w => decide (w.1 ≠ 0) := by
    rw [written, WBU.rdWe, hv, hretire.noExcp, hrd]
    cases c.wbuIn.bits.rdWe <;> simp [Option.filter]
  rw [hacc, List.take_of_length_le (length_storeEvents _), emit, hv, haw, hw, hretire.pc, hwritten,
    CPU.events, he]
  rfl

/-- An instruction that stores nothing has no events but its retirement. -/
theorem storeEvents_of_no_store (p : Program init) {b : EXUOut} {k : ℕ}
    (h : Executes (reference init k) b) (hns : (LSU.reqOp b).stores = false) :
    (reference init k).storeEvents = [] := by
  obtain ⟨e, he⟩ := p.effect k
  have hst := h.store (p.supported k) he
  rw [hns, if_neg (by decide)] at hst
  rw [CPU.storeEvents, he, Option.elim_some, hst]
  rfl

/-- A store has not begun when its instruction becomes the oldest one. -/
theorem storeProgress_of_idle {i : In} (h : Sim p c m n) (hst : c.lsu.state = .idle) :
    (reference init (c.lsuIndex n)).storeEvents.take (c.next i).storeProgress = [] := by
  have hacc := h.accessed_next (i := i)
  have hstate : (c.next i).lsu.state =
      if c.lsuIn.valid then LSU.entryState c.lsuIn.bits else .idle := by
    simp [next_lsu_state, h.wbuFlush, LSU.nextState, hst]
  simp only [hst, LSU.nextState, Bool.not_false, Bool.and_true] at hacc
  rw [storeProgress, hacc, hstate]
  cases hv : c.lsuIn.valid with
  | false => simp
  | true =>
      rcases LSU.entryState_cases c.lsuIn.bits with he | he | he
      · rw [storeEvents_of_no_store p (h.lsuIn hv) (by simp [stores_of_entryState, he]),
          List.take_nil]
      · simp [he]
      · simp [he]

/-- The events of the store being carried out. -/
theorem storeEvents_of_entry (h : Sim p c m n) (hacc : Accesses c)
    (hentry : LSU.entryState c.lsuIn.bits = .wAddr) : (reference init n).storeEvents =
      [.address (c.lsu.memOut c.lsuIn).aw.bits.addr, .data (c.lsu.memOut c.lsuIn).w.bits] := by
  obtain ⟨e, len, he, hstore, -, hbeat⟩ := h.store_of_entry hacc hentry
  rw [CPU.storeEvents, he, Option.elim_some, hstore, storeEvents, ← hbeat]
  rfl

/-- Without a retirement only the store of the oldest instruction makes progress. -/
theorem emit_of_not_retire (h : Sim p c m n) (hans : m.Answers init (c.master io) io)
    (hv : c.wbuIn.valid = false) :
    (reference init n).storeEvents.take c.storeProgress ++ c.emit io =
      (reference init n).storeEvents.take (c.next io).storeProgress := by
  have hserves := h.pipeline.serves
  have hnow : c.storeProgress = if decide (c.lsu.state = .wWaitMem) ||
      decide (c.lsu.state = .waitReady) then 2 else if c.lsu.state = .wData then 1 else 0 := by
    simp [storeProgress, accessed, hv]
  have hnext : (c.next io).storeProgress = if decide (c.lsu.state = .waitReady) ||
      decide (c.lsu.nextState c.lsuIn (c.lsuMem io) false true = .wWaitMem) ||
      decide (c.lsu.nextState c.lsuIn (c.lsuMem io) false true = .waitReady) then 2
      else if c.lsu.nextState c.lsuIn (c.lsuMem io) false true = .wData then 1 else 0 := by
    rw [storeProgress, h.accessed_next, next_lsu_state, h.wbuFlush]
  cases hst : c.lsu.state with
  | idle =>
      -- an instruction that enters has made no progress
      have hidx : c.lsuIndex n = n := by simp [lsuIndex, hv]
      have hzero := h.storeProgress_of_idle (i := io) hst
      rw [hidx] at hzero
      simp [hzero, hnow, emit, hv, hst, LSU.awFire_memOut, LSU.wFire_memOut]
  | rAddr | rWaitMem =>
      simp only [LSU.Serves, hst] at hserves
      rw [storeEvents_of_no_store p (h.lsuIn_of_busy (by simp [hst])).1
        (by simp [stores_of_entryState, hserves])]
      simp [emit, hv, LSU.awFire_memOut, LSU.wFire_memOut, hst]
  | wAddr =>
      simp only [LSU.Serves, hst] at hserves
      -- the data of a store is not taken before its address
      have hfirst : wFire (c.lsu.memOut c.lsuIn) (c.lsuMem io) = true →
          awFire (c.lsu.memOut c.lsuIn) (c.lsuMem io) = true :=
        h.bus.address_first h.routed hans hst
      rw [h.storeEvents_of_entry (by simp [Accesses, hst]) hserves, hnow, hnext, emit, hv, hst]
      simp only [LSU.nextState, hst]
      cases ha : awFire (c.lsu.memOut c.lsuIn) (c.lsuMem io) with
      | false =>
          cases hd : wFire (c.lsu.memOut c.lsuIn) (c.lsuMem io) with
          | false => simp
          | true => exact absurd (hfirst hd) (by simp [ha])
      | true => cases wFire (c.lsu.memOut c.lsuIn) (c.lsuMem io) <;> simp
  | wData =>
      simp only [LSU.Serves, hst] at hserves
      rw [h.storeEvents_of_entry (by simp [Accesses, hst]) hserves, hnow, hnext, emit, hv,
        LSU.awFire_memOut, hst]
      simp only [LSU.nextState, hst]
      cases hd : wFire (c.lsu.memOut c.lsuIn) (c.lsuMem io) <;> simp
  | wWaitMem =>
      rw [hnow, hnext, emit, hv, LSU.awFire_memOut, LSU.wFire_memOut, hst]
      simp only [LSU.nextState, hst]
      cases bFire (c.lsu.memOut c.lsuIn) (c.lsuMem io) <;> simp
  | waitReady => simp [hnow, hnext, emit, hv, LSU.awFire_memOut, LSU.wFire_memOut, hst]

/-- **One cycle of the log.** -/
theorem log_next (h : Sim p c m n) (hans : m.Answers init (c.master io) io) :
    refLog (fun k => (reference init k).events) n ++
        (reference init n).storeEvents.take c.storeProgress ++ c.emit io =
      refLog (fun k => (reference init k).events) (c.lsuIndex n) ++
        (reference init (c.lsuIndex n)).storeEvents.take (c.next io).storeProgress := by
  rw [List.append_assoc, lsuIndex]
  cases hv : c.wbuIn.valid with
  | true =>
      have hnext := h.storeProgress_of_idle (i := io) (h.pipeline.drained hv)
      rw [lsuIndex, hv, Bool.toNat_true] at hnext
      rw [h.emit_of_retire hv, Bool.toNat_true, hnext, refLog_succ, List.append_nil]
  | false =>
      rw [h.emit_of_not_retire hans hv]
      rfl

end Sim

/-! ## The log of a run -/

/-- The log is the one of what has retired, and as much of the next store as is done. -/
theorem log_eq (p : Program init) (r : machine.Run) (hans : Answered init r) (t : ℕ) :
    r.log emit t = refLog (fun k => (reference init k).events) (retired r t) ++
      (reference init (retired r t)).storeEvents.take (r.st t).storeProgress := by
  induction t with
  | zero =>
      have hacc : (r.st 0).storeProgress = 0 := by
        simp [storeProgress, accessed, r.start.wbuIn, r.start.lsu.state]
      rw [hacc]
      rfl
  | succ t ih =>
      rw [r.log_succ, ih, (sim p r hans t).log_next (hans t), st_succ]
      rfl

/-- **Refinement**: on a memory that answers, what a program does on the core is at every
time a prefix of what it does on the reference model. -/
theorem refines (p : Program init) (r : machine.Run) (hans : Answered init r) (t : ℕ) :
    ∃ n, r.log emit t <+: refLog (fun k => (reference init k).events) n := by
  refine r.log_prefix emit _ (fun t => ⟨retired r t, _, ?_, log_eq p r hans t⟩) t
  exact (List.take_prefix _ _).trans ⟨_, rfl⟩

set_option maxRecDepth 100000 in
/-- The loop stores a word; in cycle 19 the store waits for its response. -/
theorem storeLoop_refines : ((onMemory (ofWords storeLoop)).st 19).lsu.state = .wWaitMem ∧
    ∀ t, ∃ n, (onMemory (ofWords storeLoop)).log emit t <+:
      refLog (fun k => (reference (ofWords storeLoop) k).events) n :=
  ⟨onMemory_check (P := fun c => c.lsu.state = .wWaitMem) (by decide +kernel),
    refines storeLoop_program (onMemory _) (onMemory_answered _)⟩

end Core

end Bailuwan
