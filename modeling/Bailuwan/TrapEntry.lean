/-
# Trap entry

What the core does when an instruction with an exception reaches write-back: it writes
nothing, saves its `pc`, cause and value, and empties the pipeline (`Drained`).  Until
the next request is accepted nothing else redirects the fetch, so that the target of
the redirect is the next address fetched.

That target is `mtvec` unless the word of the instruction decodes to `mret` or
`fence.i`: write-back looks at these before it looks at the exception
(`trapEntry_iff`).
-/
import Bailuwan.ControlFlow
import Bailuwan.Simulator

namespace Bailuwan

open Synchronous AXI4

namespace Core

variable {c : Core} {io : In}

/-! ## An empty pipeline -/

/-- No instruction is in the pipeline or on its way to it. -/
structure Drained (c : Core) : Prop where
  inflight : c.ifu.inflight = []
  front : c.frontFetches = []
  lsuIn : c.lsuIn.valid = false
  wbuIn : c.wbuIn.valid = false
  lsu : c.lsu.state = .idle

/-- A flush empties the pipeline. -/
theorem Drained.of_wbuFlush (h : PipelineInv c) (hf : c.wbuFlush = true) :
    Drained (c.next io) where
  inflight := IFU.inflight_next_of_redirect (show (c.exuFlush || c.wbuFlush) = true by simp [hf])
  front := frontFetches_next_of_redirect (by simp [hf])
  lsuIn := by rw [next_lsuIn_valid, hf]; rfl
  wbuIn := by rw [next_wbuIn_valid, hf]; rfl
  lsu := by simp [next_lsu_state, LSU.nextState, h.idle_of_wbuFlush hf, hf]

namespace Drained

/-- A drained core has an empty execution unit. -/
theorem exuIn (h : Drained c) : c.exuIn.valid = false := by
  by_contra hv
  have hfront := h.front
  simp [frontFetches, hv] at hfront

/-- A drained core redirects nothing. -/
theorem not_redirect (h : Drained c) : c.wbuFlush = false ∧ c.exuFlush = false := by
  simp [wbuFlush, WBU.redirectValid, h.wbuIn, exuFlush, EXU.brMispredict, EXU.validBr, exuFire,
    h.exuIn]

/-- It stays empty, and the `pc` stays, while no request is accepted. -/
theorem next {i : In} (h : Drained c) (hq : c.ifu.reqFire (c.ifuIn i) = false) :
    Drained (c.next i) ∧ (c.next i).ifu.pc = c.ifu.pc := by
  obtain ⟨hf, hx⟩ := h.not_redirect
  have hred : (c.ifuIn i).redirectValid = false := by
    change (c.exuFlush || c.wbuFlush) = false
    simp [hf, hx]
  have hifu := IFU.inflight_next (f := c.ifu) hred
  rw [h.inflight, hq] at hifu
  obtain ⟨hdel, hin⟩ := List.append_eq_nil_iff.mp hifu
  have hfront := frontFetches_next (c := c) (i := i) (by simp [hf, hx])
  rw [h.front, hdel] at hfront
  refine ⟨⟨hin, (List.append_eq_nil_iff.mp hfront).2, ?_, ?_, ?_⟩, ?_⟩
  · rw [next_lsuIn_valid, hf, h.exuIn, h.lsuIn]
    simp
  · rw [next_wbuIn_valid, h.lsu]
    simp
  · simp [next_lsu_state, LSU.nextState, h.lsu, h.lsuIn]
  · have hpc : (c.next i).ifu.pc = c.ifu.dnpc (c.ifuIn i) := rfl
    simp [hpc, IFU.dnpc, hred, hq]

end Drained

/-! ## The trap -/

/-- The request of the fetch unit to the cache. -/
def fetchReq (c : Core) (io : In) : Valid (ICacheReq BPMeta) :=
  (c.ifu.icacheIn (c.ifuIn io)).req

theorem fetchReq_addr : (c.fetchReq io).bits.addr = c.ifu.pc := rfl

/-- An instruction with an exception is in write-back. -/
def Traps (c : Core) : Prop := c.wbuIn.valid = true ∧ c.wbuIn.bits.exception.valid = true

instance : Decidable (Traps c) := inferInstanceAs (Decidable (_ ∧ _))

/-- A trap flushes. -/
theorem Traps.wbuFlush (h : Traps c) : c.wbuFlush = true := by
  simp [Core.wbuFlush, WBU.redirectValid, h.1, h.2]

/-- **The statement about traps**, for the instruction in write-back in cycle `t`: the next
fetch, from the first request on that is offered until one is accepted, is at `mtvec`,
the trap CSRs describe the instruction, and nothing else is written. -/
structure TrapEntry (r : machine.Run) (t : ℕ) : Prop where
  fetch : ∀ u, t < u →
    (∀ v, t < v → v < u → (r.st v).ifu.reqFire ((r.st v).ifuIn (r.inp v)) = false) →
    ((r.st u).fetchReq (r.inp u)).valid = true ∧
      ((r.st u).fetchReq (r.inp u)).bits.addr = (r.st t).csrFile.mtvec
  mepc : (r.st (t + 1)).csrFile.mepc = (r.st t).wbuIn.bits.pc
  mcause : (r.st (t + 1)).csrFile.mcause = (r.st t).wbuIn.bits.exception.cause
  mtval : (r.st (t + 1)).csrFile.mtval = (r.st t).wbuIn.bits.exception.tval
  mstatus : (r.st (t + 1)).csrFile.mstatus = (r.st t).csrFile.mstatus
  mtvec : (r.st (t + 1)).csrFile.mtvec = (r.st t).csrFile.mtvec
  regs : (r.st (t + 1)).regFile = (r.st t).regFile

variable {r : machine.Run} {t : ℕ}

/-- Until a request is accepted the pipeline stays empty and offers the same address. -/
theorem drained_until (hf : (r.st t).wbuFlush = true) {u : ℕ} (hu : t + 1 ≤ u)
    (hnone : ∀ v, t < v → v < u → (r.st v).ifu.reqFire ((r.st v).ifuIn (r.inp v)) = false) :
    Drained (r.st u) ∧ (r.st u).ifu.pc = (r.st t).redirectTarget := by
  induction u, hu using Nat.le_induction with
  | base =>
      rw [st_succ]
      refine ⟨Drained.of_wbuFlush (pipelineInv r t) hf, ?_⟩
      have hpc : ((r.st t).next (r.inp t)).ifu.pc =
          (r.st t).ifu.dnpc ((r.st t).ifuIn (r.inp t)) := rfl
      simp [hpc, IFU.dnpc, ifuIn, hf]
  | succ u hu ih =>
      obtain ⟨hd, hpc⟩ := ih fun v h1 h2 => hnone v h1 (by omega)
      obtain ⟨hd', hpc'⟩ := hd.next (i := r.inp u) (hnone u (by omega) (by omega))
      rw [st_succ]
      exact ⟨hd', hpc'.trans hpc⟩

/-- The first fetch after a flush is at the target of the redirect. -/
theorem fetch_after_flush (hf : (r.st t).wbuFlush = true) {u : ℕ} (hu : t + 1 ≤ u)
    (hnone : ∀ v, t < v → v < u → (r.st v).ifu.reqFire ((r.st v).ifuIn (r.inp v)) = false) :
    ((r.st u).fetchReq (r.inp u)).valid = true ∧
      ((r.st u).fetchReq (r.inp u)).bits.addr = (r.st t).redirectTarget := by
  obtain ⟨hd, hpc⟩ := drained_until hf hu hnone
  obtain ⟨hf', hx'⟩ := hd.not_redirect
  refine ⟨?_, hpc⟩
  simp [fetchReq, IFU.icacheIn, ifuIn, hf', hx']

/-- The CSRs and registers after a trap. -/
theorem Traps.csrFile_next {i : In} (h : Traps c) : (c.next i).csrFile =
    { c.csrFile with
      mepc := c.wbuIn.bits.pc
      mcause := c.wbuIn.bits.exception.cause
      mtval := c.wbuIn.bits.exception.tval
      mcycle := c.csrFile.mcycle + 1 } := by
  have hw : WBU.csrRdWe c.wbuIn = false := by simp [WBU.csrRdWe, h.2]
  simp [next, CSRFile.next, WBU.exception, h.1, h.2, CSRFile.writable, csrWrite, hw]

/-- A trap writes no register. -/
theorem Traps.regFile_next {i : In} (h : Traps c) : (c.next i).regFile = c.regFile := by
  have hw : WBU.rdWe c.wbuIn = false := by simp [WBU.rdWe, h.2]
  simp [next, RegFile.next, hw]

/-- **Trap entry**: it goes to `mtvec` if and only if the word of the instruction does
not decode to `mret` or `fence.i`, whose targets come first. -/
theorem trapEntry_iff (h : Traps (r.st t)) : TrapEntry r t ↔
    ((r.st t).wbuIn.bits.isTrapReturn = true → (r.st t).csrFile.mepc = (r.st t).csrFile.mtvec) ∧
      ((r.st t).wbuIn.bits.isTrapReturn = false → (r.st t).wbuIn.bits.isFenceI = true →
        (r.st t).wbuIn.bits.pc + 4 = (r.st t).csrFile.mtvec) := by
  have htarget : (r.st t).redirectTarget = if (r.st t).wbuIn.bits.isTrapReturn = true then
      (r.st t).csrFile.mepc else if (r.st t).wbuIn.bits.isFenceI = true then
      (r.st t).wbuIn.bits.pc + 4 else (r.st t).csrFile.mtvec := by
    rw [redirectTarget, h.wbuFlush]
    rfl
  have hcsr := h.csrFile_next (i := r.inp t)
  have hregs := h.regFile_next (i := r.inp t)
  rw [← st_succ] at hcsr hregs
  have hentry : TrapEntry r t ↔ (r.st t).redirectTarget = (r.st t).csrFile.mtvec := by
    refine ⟨fun he => ?_, fun heq => ⟨fun u hu hnone => ?_, ?_, ?_, ?_, ?_, ?_, hregs⟩⟩
    · have hfetch := he.fetch (t + 1) (by omega) (by omega)
      exact (fetch_after_flush h.wbuFlush le_rfl (by omega)).2.symm.trans hfetch.2
    · rw [← heq]
      exact fetch_after_flush h.wbuFlush hu hnone
    all_goals rw [hcsr]
  rw [hentry, htarget]
  cases hret : (r.st t).wbuIn.bits.isTrapReturn <;>
    cases hfence : (r.st t).wbuIn.bits.isFenceI <;> simp

/-- A program that sets `mtvec` and jumps to an address in the middle of `inst`. -/
def jumpInto (inst : Word) : Word → Word := fun a =>
  if a = 0x30000000 then 0x300000b7       -- lui x1, 0x30000
  else if a = 0x30000004 then 0x30509073  -- csrrw x0, mtvec, x1
  else if a = 0x30000008 then 0x01208067  -- jalr x0, 18(x1)
  else if a = 0x30000010 then inst
  else 0x00000013

set_option maxRecDepth 100000 in
/-- With a plain instruction there the trap goes to `mtvec`. -/
theorem jumpIntoAddi_trapEntry : TrapEntry (onMemory (ofWords (jumpInto 0x00000013))) 27 := by
  have hcheck := onMemory_check (m := ofWords (jumpInto 0x00000013)) (t := 27)
    (P := fun c => Traps c ∧ c.wbuIn.bits.isTrapReturn = false ∧ c.wbuIn.bits.isFenceI = false)
    (by decide +kernel)
  refine (trapEntry_iff hcheck.1).mpr ⟨fun h => ?_, fun _ h => ?_⟩
  · rw [hcheck.2.1] at h
    exact absurd h (by decide)
  · rw [hcheck.2.2] at h
    exact absurd h (by decide)

set_option maxRecDepth 100000 in
/-- With `mret` there it goes to `mepc`, which is still 0. -/
theorem jumpIntoMret_not_trapEntry :
    ¬ ∀ (r : machine.Run) (t : ℕ), Traps (r.st t) → TrapEntry r t := by
  intro h
  have hrun := onMemory_check_from (m := ofWords (jumpInto 0x30200073)) (t := 27)
    (P := fun st => (Traps (st 0) ∧ (st 0).csrFile.mtvec = 0x30000000) ∧ (st 1).ifu.pc = 0)
    (by decide +kernel)
  simp only [Nat.reduceAdd] at hrun
  obtain ⟨h27, h28⟩ := hrun
  have hfetch := ((h (onMemory (ofWords (jumpInto 0x30200073))) 27 h27.1).fetch 28 (by decide)
    (by omega)).2
  rw [fetchReq_addr, h28, h27.2] at hfetch
  exact absurd hfetch (by decide)

end Core

end Bailuwan
