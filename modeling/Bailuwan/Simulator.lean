/-
# The core on a memory

The core and a memory behind its external port make a closed system, `Core.onMemory`.
Its states are the iterates of `tick`, which is strict, so that what a program does in
its first cycles can be evaluated (`onMemory_st`).
-/
import Bailuwan.Core
import Bailuwan.Memory
import Bailuwan.Strict

namespace Bailuwan

open Synchronous AXI4

open Strict (force)

/-! ## The records are strict -/

instance : Strict BranchType := ⟨forceEnum [.call, .ret, .jump, .branch], forceEnum_eq _⟩
instance : Strict OperType :=
  ⟨forceEnum [.rs1, .rs2, .imm, .zero, .four, .pc, .csr],
    forceEnum_eq _⟩
instance : Strict ExecType :=
  ⟨forceEnum [.alu, .lsu, .ecall, .mret, .ebreak, .csr, .fenceI],
    forceEnum_eq _⟩
instance : Strict ALUOp :=
  ⟨forceEnum [.add, .sub, .sll, .slt, .sltu, .xor, .srl, .sra, .or, .and],
    forceEnum_eq _⟩
instance : Strict BrOp :=
  ⟨forceEnum [.nop, .jal, .jalr, .beq, .bne, .blt, .bge, .bltu, .bgeu],
    forceEnum_eq _⟩
instance : Strict LSUOp :=
  ⟨forceEnum [.nop, .lb, .lh, .lw, .lbu, .lhu, .sb, .sh, .sw],
    forceEnum_eq _⟩
instance : Strict CSROp := ⟨forceEnum [.nop, .rw, .rs, .rc], forceEnum_eq _⟩
instance : Strict LSUState :=
  ⟨forceEnum [.idle, .rAddr, .rWaitMem, .wAddr, .wData, .wWaitMem, .waitReady],
    forceEnum_eq _⟩
instance : Strict ICacheState := ⟨forceEnum [.idle, .fillAddr, .waitMem, .resp], forceEnum_eq _⟩
instance : Strict BusState := ⟨forceEnum [.idle, .busy], forceEnum_eq _⟩
instance : Strict ErrorWriteState := ⟨forceEnum [.idle, .waitData, .resp], forceEnum_eq _⟩

instance {β : Type} [Strict β] : Strict (Valid β) where
  force x k := force x.valid fun v => force x.bits fun b => k ⟨v, b⟩
  force_eq x k := by simp

instance : Strict ExceptionInfo where
  force x k := force x.valid fun a => force x.cause fun b => force x.tval fun c => k ⟨a, b, c⟩
  force_eq x k := by simp

instance : Strict BPMeta where
  force x k := force x.predictTaken fun a => force x.predictTarget fun b => k ⟨a, b⟩
  force_eq x k := by simp

instance : Strict IFUOut where
  force x k := force x.pc fun a => force x.inst fun b => force x.exception fun c =>
    force x.predictTaken fun d => force x.predictTarget fun e => k ⟨a, b, c, d, e⟩
  force_eq x k := by simp

instance : Strict IDUOut where
  force x k := force x.pc fun a1 => force x.inst fun a2 => force x.aluOper1Type fun a3 =>
    force x.aluOper2Type fun a4 => force x.rs1Data fun a5 => force x.rs2Data fun a6 =>
    force x.rs1Addr fun a7 => force x.rs2Addr fun a8 => force x.rdAddr fun a9 =>
    force x.rdWe fun a10 => force x.imm fun a11 => force x.csrAddr fun a12 =>
    force x.execType fun a13 => force x.aluOp fun a14 => force x.lsuOp fun a15 =>
    force x.brOp fun a16 => force x.csrOp fun a17 => force x.exception fun a18 =>
    force x.predictTaken fun a19 => force x.predictTarget fun a20 =>
    k ⟨a1, a2, a3, a4, a5, a6, a7, a8, a9, a10, a11, a12, a13, a14, a15, a16, a17, a18, a19, a20⟩
  force_eq x k := by simp

instance : Strict EXUOut where
  force x k := force x.lsuOp fun a1 => force x.lsuAddr fun a2 => force x.lsuStoreData fun a3 =>
    force x.exOut fun a4 => force x.rdAddr fun a5 => force x.rdWe fun a6 =>
    force x.csrRdAddr fun a7 => force x.csrRdWe fun a8 => force x.csrRdData fun a9 =>
    force x.pc fun a10 => force x.inst fun a11 => force x.exception fun a12 =>
    force x.isTrapReturn fun a13 => force x.isFenceI fun a14 =>
    k ⟨a1, a2, a3, a4, a5, a6, a7, a8, a9, a10, a11, a12, a13, a14⟩
  force_eq x k := by simp

instance : Strict LSUOut where
  force x k := force x.lsOut fun a1 => force x.rdAddr fun a2 => force x.rdWe fun a3 =>
    force x.csrRdAddr fun a4 => force x.csrRdWe fun a5 => force x.csrRdData fun a6 =>
    force x.pc fun a7 => force x.inst fun a8 => force x.exception fun a9 =>
    force x.isTrapReturn fun a10 => force x.isFenceI fun a11 =>
    k ⟨a1, a2, a3, a4, a5, a6, a7, a8, a9, a10, a11⟩
  force_eq x k := by simp

instance {γ : Type} [Strict γ] : Strict (ICache γ) where
  force x k := force x.state fun a1 => force x.fillAddr fun a2 => force x.fillUser fun a3 =>
    force x.fillCnt fun a4 => force x.reqKilled fun a5 => force x.err fun a6 =>
    force x.validStorage fun a7 => force x.tagStorage fun a8 => force x.dataStorage fun a9 =>
    k ⟨a1, a2, a3, a4, a5, a6, a7, a8, a9⟩
  force_eq x k := by simp

instance : Strict BTB where
  force x k := force x.validStorage fun a => force x.tagStorage fun b =>
    force x.targetStorage fun c => force x.typeStorage fun d => k ⟨a, b, c, d⟩
  force_eq x k := by simp

instance : Strict RAS where
  force x k := force x.stack fun a => force x.ptr fun b => k ⟨a, b⟩
  force_eq x k := by simp

instance : Strict BPU where
  force x k := force x.btb fun a => force x.ras fun b => k ⟨a, b⟩
  force_eq x k := by simp

instance : Strict IFU where
  force x k := force x.icache fun a => force x.pc fun b => force x.bpu fun c =>
    force x.queue fun d => k ⟨a, b, c, d⟩
  force_eq x k := by simp

instance : Strict LSU where
  force x k := force x.state fun a => force x.readReg fun b => force x.accessFault fun c =>
    k ⟨a, b, c⟩
  force_eq x k := by simp

instance : Strict RegFile where
  force x k := force x.regs fun a => k ⟨a⟩
  force_eq x k := by simp

instance : Strict CSRFile where
  force x k := force x.mstatus fun a => force x.mtvec fun b => force x.mepc fun c =>
    force x.mcause fun d => force x.mtval fun e => force x.mcycle fun f => k ⟨a, b, c, d, e, f⟩
  force_eq x k := by simp

instance {n : ℕ} : Strict (AXI4Arbiter (n + 1)) where
  force x k := force x.rState fun a => force x.rOwnerId fun b => force x.wState fun c =>
    force x.wOwnerId fun d => k ⟨a, b, c, d⟩
  force_eq x k := by simp

instance : Strict AXI4ErrorSlave where
  force x k := force x.rState fun a => force x.rId fun b => force x.rLen fun c =>
    force x.rCnt fun d => force x.wState fun e => force x.wId fun f => k ⟨a, b, c, d, e, f⟩
  force_eq x k := by simp

instance {n : ℕ} : Strict (AXI4CrossBar n) where
  force x k := force x.rState fun a => force x.rOwnerId fun b => force x.wState fun c =>
    force x.wOwnerId fun d => force x.errSlave fun e => k ⟨a, b, c, d, e⟩
  force_eq x k := by simp

instance {n m : ℕ} : Strict (Interconnect n m) where
  force x k := force x.arbiter fun a => force x.xbar fun b => k ⟨a, b⟩
  force_eq x k := by simp

instance : Strict CLINT where
  force x k := force x.mtime fun a => force x.addrReg fun b => k ⟨a, b⟩
  force_eq x k := by simp

instance : Strict Core where
  force x k := force x.ifu fun a1 => force x.iduIn fun a2 => force x.exuIn fun a3 =>
    force x.lsuIn fun a4 => force x.wbuIn fun a5 => force x.lsu fun a6 =>
    force x.regFile fun a7 => force x.csrFile fun a8 => force x.bus fun a9 =>
    force x.clint fun a10 => k ⟨a1, a2, a3, a4, a5, a6, a7, a8, a9, a10⟩
  force_eq x k := by simp

instance : Strict ReadAddressChannel where
  force x k := force x.addr fun a => force x.id fun b => force x.len fun c => force x.size fun d =>
    force x.burst fun e => k ⟨a, b, c, d, e⟩
  force_eq x k := by simp

instance : Strict ReadBurst where
  force x k := force x.ar fun a => force x.beat fun b => k ⟨a, b⟩
  force_eq x k := by simp

instance : Strict WriteDataChannel where
  force x k := force x.data fun a => force x.strb fun b => force x.last fun c => k ⟨a, b, c⟩
  force_eq x k := by simp

instance : Strict Memory where
  force x k := force x.stores fun a => force x.reading fun b => force x.writing fun c =>
    force x.written fun d => k ⟨a, b, c, d⟩
  force_eq x k := by simp

/-! ## The closed system -/

namespace Core

/-- The memory behind the external port, along a run. -/
def memory (r : machine.Run) : ℕ → Memory :=
  r.watch {} fun m c io => m.next (c.master io) io

/-- A core just out of reset. -/
def fresh : Core where
  ifu :=
    { icache := ⟨.idle, 0, ⟨false, 0⟩, 0, false, false, fun _ => false, fun _ => 0, fun _ _ => 0⟩
      pc := resetVector
      bpu := ⟨⟨fun _ => false, fun _ => 0, fun _ => 0, fun _ => .branch⟩, ⟨fun _ => 0, 0⟩⟩
      queue := [] }
  iduIn := ⟨false, ⟨0, 0, ⟨false, 0, 0⟩, false, 0⟩⟩
  exuIn := ⟨false, ⟨0, 0, .zero, .zero, 0, 0, 0, 0, 0, false, 0, 0, .alu, .add, .nop, .nop, .nop,
    ⟨false, 0, 0⟩, false, 0⟩⟩
  lsuIn := ⟨false, ⟨.nop, 0, 0, 0, 0, false, 0, false, 0, 0, 0, ⟨false, 0, 0⟩, false, false⟩⟩
  wbuIn := ⟨false, ⟨0, 0, false, 0, false, 0, 0, 0, ⟨false, 0, 0⟩, false, false⟩⟩
  lsu := ⟨.idle, 0, false⟩
  regFile := ⟨fun _ => 0⟩
  csrFile := CSRFile.reset
  bus := ⟨AXI4Arbiter.reset, AXI4CrossBar.rest⟩
  clint := ⟨0, 0⟩

theorem fresh_isReset : fresh.IsReset where
  ifu := ⟨⟨rfl, rfl, rfl, rfl, fun _ => rfl⟩, rfl, ⟨⟨fun _ => rfl⟩, rfl⟩, rfl⟩
  iduIn := rfl
  exuIn := rfl
  lsuIn := rfl
  wbuIn := rfl
  lsu := ⟨rfl, rfl⟩
  regFile := fun _ => rfl
  csrFile := rfl
  bus := ⟨rfl, rfl, rfl, rfl, rfl, rfl, rfl⟩
  clint := rfl

variable (init : Bytes)

/-- The run of a fresh core on a memory with the given contents. -/
def onMemory : machine.Run :=
  machine.closedRun fresh fresh_isReset ({} : Memory) (fun m _ => m.respond init)
    fun m c io => m.next (c.master io) io

/-- One cycle of the core and its memory. -/
def tick (s : Core × Memory) : Core × Memory :=
  (s.1.next (s.2.respond init), s.2.next (s.1.master (s.2.respond init)) (s.2.respond init))

/-- The inputs are the answers of the memory. -/
theorem onMemory_inp (t : ℕ) :
    (onMemory init).inp t = (memory (onMemory init) t).respond init := by
  have henv := Machine.Run.watch_closedRun (M := machine) fresh fresh_isReset ({} : Memory)
    (fun m _ => m.respond init) (fun m c io => m.next (c.master io) io) t
  exact congrArg (Memory.respond init) henv.symm

/-- The states are those of the ticks. -/
theorem onMemory_st (t : ℕ) :
    ((onMemory init).st t, memory (onMemory init) t) = (tick init)^[t] (fresh, {}) := by
  induction t with
  | zero => rfl
  | succ t ih =>
      rw [Function.iterate_succ_apply', ← ih]
      rw [(onMemory init).step, memory, Machine.Run.watch_succ, ← memory, onMemory_inp]
      rfl

/-- A property of the state in cycle `t` is decided by evaluation. -/
theorem onMemory_check {m : Bytes} {P : Core → Prop} [DecidablePred P] {t : ℕ}
    (h : after (tick m) (fun s => decide (P s.1)) t (fresh, {}) = true) :
    P ((onMemory m).st t) := by
  rw [after_eq, ← onMemory_st] at h
  exact of_decide_eq_true h

/-- The same, for a property that is also about what the memory drives. -/
theorem onMemory_check_inp {m : Bytes} {P : Core → In → Prop} [∀ c io, Decidable (P c io)] {t : ℕ}
    (h : after (tick m) (fun s => decide (P s.1 (s.2.respond m))) t (fresh, {}) = true) :
    P ((onMemory m).st t) ((onMemory m).inp t) := by
  rw [after_eq, ← onMemory_st, ← onMemory_inp] at h
  exact of_decide_eq_true h

/-- A property of the state in cycle `t` and the states after it. -/
theorem onMemory_check_from {m : Bytes} {P : (ℕ → Core) → Prop} [DecidablePred P] {t : ℕ}
    (h : after (tick m) (fun s => decide (P fun k => ((tick m)^[k] s).1)) t (fresh, {}) = true) :
    P fun k => (onMemory m).st (t + k) := by
  have hst : (fun k => ((tick m)^[k] ((tick m)^[t] (fresh, {}))).1) =
      fun k => (onMemory m).st (t + k) := by
    funext k
    rw [← Function.iterate_add_apply, Nat.add_comm, ← onMemory_st]
  rw [after_eq, hst] at h
  exact of_decide_eq_true h

end Core

end Bailuwan
