/-
# The decoder (`core/IDU.scala`)

The decoder looks the instruction up in `InstDecodeTable`, reads its operands, from
the register file or forwarded from one of the three later stages, and stalls while
an operand it reads is still to be loaded.
-/
import Mathlib.Data.List.Basic
import Bailuwan.IFU
import Bailuwan.InstPat

namespace Bailuwan

/-! ## The decode table -/

/-- A row of `InstDecodeTable`. -/
structure DecodeEntry where
  fmt : InstFmt
  oper1 : OperType
  oper2 : OperType
  we : Bool
  aluOp : ALUOp
  brOp : BrOp
  lsuOp : LSUOp
  csrOp : CSROp
  execType : ExecType
  deriving DecidableEq, Repr

namespace InstDecodeTable

open InstPat

/-- The row of an instruction that is not in the table: an illegal one. -/
def default : DecodeEntry := ⟨.E, .zero, .zero, true, .add, .nop, .nop, .nop, .alu⟩

/-- `table`, in the order of the source: format, operands of the ALU, write enable, operations and
unit. -/
def table : List (BitPat × DecodeEntry) :=
  [(LUI, ⟨.U, .imm, .zero, true, .add, .nop, .nop, .nop, .alu⟩),
   (AUIPC, ⟨.U, .pc, .imm, true, .add, .nop, .nop, .nop, .alu⟩),
   (JAL, ⟨.J, .pc, .four, true, .add, .jal, .nop, .nop, .alu⟩),
   (JALR, ⟨.I, .pc, .four, true, .add, .jalr, .nop, .nop, .alu⟩),
   (BEQ, ⟨.B, .rs1, .rs2, false, .sub, .beq, .nop, .nop, .alu⟩),
   (BNE, ⟨.B, .rs1, .rs2, false, .sub, .bne, .nop, .nop, .alu⟩),
   (BLT, ⟨.B, .rs1, .rs2, false, .slt, .blt, .nop, .nop, .alu⟩),
   (BGE, ⟨.B, .rs1, .rs2, false, .slt, .bge, .nop, .nop, .alu⟩),
   (BLTU, ⟨.B, .rs1, .rs2, false, .sltu, .bltu, .nop, .nop, .alu⟩),
   (BGEU, ⟨.B, .rs1, .rs2, false, .sltu, .bgeu, .nop, .nop, .alu⟩),
   (LB, ⟨.I, .rs1, .imm, true, .add, .nop, .lb, .nop, .lsu⟩),
   (LH, ⟨.I, .rs1, .imm, true, .add, .nop, .lh, .nop, .lsu⟩),
   (LW, ⟨.I, .rs1, .imm, true, .add, .nop, .lw, .nop, .lsu⟩),
   (LBU, ⟨.I, .rs1, .imm, true, .add, .nop, .lbu, .nop, .lsu⟩),
   (LHU, ⟨.I, .rs1, .imm, true, .add, .nop, .lhu, .nop, .lsu⟩),
   (SB, ⟨.S, .rs1, .imm, false, .add, .nop, .sb, .nop, .lsu⟩),
   (SH, ⟨.S, .rs1, .imm, false, .add, .nop, .sh, .nop, .lsu⟩),
   (SW, ⟨.S, .rs1, .imm, false, .add, .nop, .sw, .nop, .lsu⟩),
   (ADDI, ⟨.I, .rs1, .imm, true, .add, .nop, .nop, .nop, .alu⟩),
   (SLTI, ⟨.I, .rs1, .imm, true, .slt, .nop, .nop, .nop, .alu⟩),
   (SLTIU, ⟨.I, .rs1, .imm, true, .sltu, .nop, .nop, .nop, .alu⟩),
   (XORI, ⟨.I, .rs1, .imm, true, .xor, .nop, .nop, .nop, .alu⟩),
   (ORI, ⟨.I, .rs1, .imm, true, .or, .nop, .nop, .nop, .alu⟩),
   (ANDI, ⟨.I, .rs1, .imm, true, .and, .nop, .nop, .nop, .alu⟩),
   (SLLI, ⟨.I, .rs1, .imm, true, .sll, .nop, .nop, .nop, .alu⟩),
   (SRLI, ⟨.I, .rs1, .imm, true, .srl, .nop, .nop, .nop, .alu⟩),
   (SRAI, ⟨.I, .rs1, .imm, true, .sra, .nop, .nop, .nop, .alu⟩),
   (ADD, ⟨.R, .rs1, .rs2, true, .add, .nop, .nop, .nop, .alu⟩),
   (SUB, ⟨.R, .rs1, .rs2, true, .sub, .nop, .nop, .nop, .alu⟩),
   (SLL, ⟨.R, .rs1, .rs2, true, .sll, .nop, .nop, .nop, .alu⟩),
   (SLT, ⟨.R, .rs1, .rs2, true, .slt, .nop, .nop, .nop, .alu⟩),
   (SLTU, ⟨.R, .rs1, .rs2, true, .sltu, .nop, .nop, .nop, .alu⟩),
   (XOR, ⟨.R, .rs1, .rs2, true, .xor, .nop, .nop, .nop, .alu⟩),
   (SRL, ⟨.R, .rs1, .rs2, true, .srl, .nop, .nop, .nop, .alu⟩),
   (SRA, ⟨.R, .rs1, .rs2, true, .sra, .nop, .nop, .nop, .alu⟩),
   (OR, ⟨.R, .rs1, .rs2, true, .or, .nop, .nop, .nop, .alu⟩),
   (AND, ⟨.R, .rs1, .rs2, true, .and, .nop, .nop, .nop, .alu⟩),
   (ECALL, ⟨.I, .zero, .zero, false, .add, .nop, .nop, .nop, .ecall⟩),
   (EBREAK, ⟨.I, .zero, .zero, false, .add, .nop, .nop, .nop, .ebreak⟩),
   (CSRRW, ⟨.C, .csr, .rs1, true, .add, .nop, .nop, .rw, .csr⟩),
   (CSRRS, ⟨.C, .csr, .rs1, true, .add, .nop, .nop, .rs, .csr⟩),
   (CSRRC, ⟨.C, .csr, .rs1, true, .add, .nop, .nop, .rc, .csr⟩),
   (CSRRWI, ⟨.C, .csr, .imm, true, .add, .nop, .nop, .rw, .csr⟩),
   (CSRRSI, ⟨.C, .csr, .imm, true, .add, .nop, .nop, .rs, .csr⟩),
   (CSRRCI, ⟨.C, .csr, .imm, true, .add, .nop, .nop, .rc, .csr⟩),
   (MRET, ⟨.I, .zero, .zero, false, .add, .nop, .nop, .nop, .mret⟩),
   (FENCE_I, ⟨.I, .zero, .zero, false, .add, .nop, .nop, .nop, .fenceI⟩)]

/-- `ListLookup(inst, default, table)`: the first row whose pattern matches. -/
def lookup (inst : Word) : DecodeEntry :=
  match table.find? fun row => row.1.matches inst with
  | some row => row.2
  | none => default

/-- What holds of the default and of every row holds of every instruction. -/
theorem lookup_of_rows {P : DecodeEntry → Prop} (hd : P default) (h : ∀ row ∈ table, P row.2)
    (inst : Word) : P (lookup inst) := by
  unfold lookup
  split
  · exact h _ (List.mem_of_find?_eq_some ‹_›)
  · exact hd

/-- An instruction for the CSR file has no memory operation. -/
theorem lsuOp_of_csr (inst : Word) (h : (lookup inst).execType = .csr) :
    (lookup inst).lsuOp = .nop :=
  lookup_of_rows (P := fun e => e.execType = .csr → e.lsuOp = .nop) (by decide) (by decide)
    inst h

end InstDecodeTable

/-! ## Bundles -/

/-- What the decoder hands over to EXU. -/
structure IDUOut where
  pc : Word
  inst : Word
  aluOper1Type : OperType
  aluOper2Type : OperType
  rs1Data : Word
  rs2Data : Word
  rs1Addr : BitVec 5
  rs2Addr : BitVec 5
  rdAddr : BitVec 5
  rdWe : Bool
  imm : Word
  csrAddr : BitVec 12
  execType : ExecType
  aluOp : ALUOp
  lsuOp : LSUOp
  brOp : BrOp
  csrOp : CSROp
  exception : ExceptionInfo
  predictTaken : Bool
  predictTarget : Word
  deriving DecidableEq, Repr

/-- What a later stage says about its destination register. -/
structure HazardInfo where
  valid : Bool
  rd : BitVec 5
  data : Word
  dataValid : Bool
  deriving DecidableEq, Repr

namespace IDU

variable (inst : Word)

/-! ## Fields and immediates -/

/-- The destination specifier. -/
def rd : BitVec 5 := inst.extractLsb' 7 5

/-- The first source specifier. -/
def rs1 : BitVec 5 := inst.extractLsb' 15 5

/-- The second source specifier. -/
def rs2 : BitVec 5 := inst.extractLsb' 20 5

/-- The immediate of the format I. -/
def immI : Word := (inst.extractLsb' 20 12).signExtend 32

/-- The immediate of the format S. -/
def immS : Word := (inst.extractLsb' 25 7 ++ inst.extractLsb' 7 5).signExtend 32

/-- The immediate of the format B, which is even. -/
def immB : Word :=
  (inst.extractLsb' 31 1 ++ inst.extractLsb' 7 1 ++ inst.extractLsb' 25 6 ++
    inst.extractLsb' 8 4 ++ (0 : BitVec 1)).signExtend 32

/-- The immediate of the format U. -/
def immU : Word := inst.extractLsb' 12 20 ++ (0 : BitVec 12)

/-- The immediate of the format J, which is even. -/
def immJ : Word :=
  (inst.extractLsb' 31 1 ++ inst.extractLsb' 12 8 ++ inst.extractLsb' 20 1 ++
    inst.extractLsb' 21 10 ++ (0 : BitVec 1)).signExtend 32

/-- The immediate of `csrrwi`, `csrrsi` and `csrrci`. -/
def immCsr : Word := (inst.extractLsb' 15 5).setWidth 32

/-- The control signals of an instruction. -/
def decode : DecodeEntry := InstDecodeTable.lookup inst

/-- The immediate, by the format. -/
def imm : Word :=
  match (decode inst).fmt with
  | .I => immI inst
  | .S => immS inst
  | .B => immB inst
  | .U => immU inst
  | .J => immJ inst
  | .C => immCsr inst
  | .R | .E => 0

/-- The CSR that an instruction names. -/
def csrAddr : BitVec 12 := inst.extractLsb' 20 12

/-! ## Hazards -/

variable (hazards : List HazardInfo)

/-- The value of a register: the nearest hazard with its data, else the register file. -/
def forwardReg (rs : BitVec 5) (regfileData : Word) : Word :=
  match hazards.find? fun info =>
      decide (rs ≠ 0) && info.valid && decide (info.rd = rs) && info.dataValid with
  | some info => info.data
  | none => regfileData

/-- A register that is read is still to be loaded. -/
def needStall (rs : BitVec 5) (read : Bool) : Bool :=
  decide (rs ≠ 0) && read &&
    hazards.any fun info => info.valid && decide (info.rd = rs) && !info.dataValid

/-- The instruction reads its first source register. -/
def rs1Read : Bool :=
  match (decode inst).fmt with
  | .R | .I | .S | .B => true
  | .C => decide ((decode inst).oper2 = .rs1)
  | .U | .J | .E => false

/-- The instruction reads its second source register. -/
def rs2Read : Bool :=
  match (decode inst).fmt with
  | .R | .S | .B => true
  | .I | .C | .U | .J | .E => false

/-- An `ebreak` waits until the later stages are empty. -/
def waitEbreak : Bool :=
  decide ((decode inst).execType = .ebreak) && hazards.any fun info => info.valid

/-- The decoder waits: for the value of a register, or with `ebreak` until nothing is in front of
it. -/
def hazardStall (x : Valid IFUOut) : Bool :=
  x.valid && (needStall hazards (rs1 x.bits.inst) (rs1Read x.bits.inst) ||
    needStall hazards (rs2 x.bits.inst) (rs2Read x.bits.inst) || waitEbreak x.bits.inst hazards)

/-! ## The output -/

/-- The exception: one of the fetch, or that the instruction is illegal. -/
def excp (x : IFUOut) : ExceptionInfo where
  valid := x.exception.valid || decide ((decode x.inst).fmt = .E)
  cause := if x.exception.valid then x.exception.cause else ExceptionCode.IllegalInstruction
  tval := if x.exception.valid then x.exception.tval else x.inst

/-- The decoded instruction, given the outputs of the register file. -/
def bits (x : IFUOut) (rs1Data rs2Data : Word) : IDUOut where
  pc := x.pc
  inst := x.inst
  aluOper1Type := (decode x.inst).oper1
  aluOper2Type := (decode x.inst).oper2
  rs1Data := forwardReg hazards (rs1 x.inst) rs1Data
  rs2Data := forwardReg hazards (rs2 x.inst) rs2Data
  rs1Addr := rs1 x.inst
  rs2Addr := rs2 x.inst
  rdAddr := rd x.inst
  rdWe := (decode x.inst).we
  imm := imm x.inst
  csrAddr := csrAddr x.inst
  execType := (decode x.inst).execType
  aluOp := (decode x.inst).aluOp
  lsuOp := (decode x.inst).lsuOp
  brOp := (decode x.inst).brOp
  csrOp := (decode x.inst).csrOp
  exception := excp x
  predictTaken := x.predictTaken
  predictTarget := x.predictTarget

end IDU

end Bailuwan
