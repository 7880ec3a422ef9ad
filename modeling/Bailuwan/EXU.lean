/-
# The execution stage (`core/ALU.scala`, `core/EXU.scala`)

The stage is combinational: it computes the result, the CSR write, the exception and
the branch outcome of the instruction in front of it, and compares the outcome with
the prediction the instruction was fetched with.
-/
import Bailuwan.IDU

namespace Bailuwan

/-! ## The ALU -/

/-- A Boolean as a word. -/
def boolWord (b : Bool) : Word := if b then 1 else 0

/-- The arithmetic and logic unit. -/
def ALU (op : ALUOp) (oper1 oper2 : Word) : Word :=
  let shamt := (oper2.extractLsb' 0 5).toNat
  match op with
  | .add => oper1 + oper2
  | .sub => oper1 - oper2
  | .sll => oper1 <<< shamt
  | .slt => boolWord (oper1.slt oper2)
  | .sltu => boolWord (oper1.ult oper2)
  | .xor => oper1 ^^^ oper2
  | .srl => oper1 >>> shamt
  | .sra => oper1.sshiftRight shamt
  | .or => oper1 ||| oper2
  | .and => oper1 &&& oper2

/-! ## Bundles -/

/-- What EXU hands over to the load and store unit. -/
structure EXUOut where
  lsuOp : LSUOp
  lsuAddr : Word
  lsuStoreData : Word
  exOut : Word
  rdAddr : BitVec 5
  rdWe : Bool
  csrRdAddr : BitVec 12
  csrRdWe : Bool
  csrRdData : Word
  pc : Word
  inst : Word
  exception : ExceptionInfo
  isTrapReturn : Bool
  isFenceI : Bool
  deriving DecidableEq, Repr

namespace EXU

variable (x : IDUOut) (csrRsData : Word)

/-! ## The result -/

/-- An operand, by its type. -/
def oper (t : OperType) : Word :=
  match t with
  | .rs1 => x.rs1Data
  | .rs2 => x.rs2Data
  | .imm => x.imm
  | .zero => 0
  | .four => 4
  | .pc => x.pc
  | .csr => csrRsData

/-- The first operand of the ALU. -/
def oper1 : Word := oper x csrRsData x.aluOper1Type

/-- The second operand of the ALU. -/
def oper2 : Word := oper x csrRsData x.aluOper2Type

/-- The result of the ALU, which is also the address of an access. -/
def result : Word := ALU x.aluOp (oper1 x csrRsData) (oper2 x csrRsData)

/-- What is written to the CSR. -/
def csrRdData : Word :=
  match x.csrOp with
  | .nop => 0
  | .rw => oper2 x csrRsData
  | .rs => csrRsData ||| oper2 x csrRsData
  | .rc => csrRsData &&& ~~~ oper2 x csrRsData

/-- The value for the destination register; that of a load comes later. -/
def exOut : Word :=
  match x.execType with
  | .alu => result x csrRsData
  | .csr => csrRsData
  | _ => 0

/-! ## Exceptions -/

/-- The exception: one of the fetch or the decoder, or the one that the instruction makes. -/
def excp : ExceptionInfo where
  valid := x.exception.valid || decide (x.execType = .ebreak) || decide (x.execType = .ecall)
  cause :=
    if x.exception.valid then x.exception.cause
    else if x.execType = .ebreak then ExceptionCode.Breakpoint
    else if x.execType = .ecall then ExceptionCode.EnvironmentCallFromMMode
    else 0
  tval := if x.exception.valid then x.exception.tval else x.pc

/-- What is handed over for an instruction. -/
def bits : EXUOut where
  lsuOp := x.lsuOp
  lsuAddr := result x csrRsData
  lsuStoreData := x.rs2Data
  exOut := exOut x csrRsData
  rdAddr := x.rdAddr
  rdWe := x.rdWe
  csrRdAddr := x.csrAddr
  csrRdWe := decide (x.execType = .csr)
  csrRdData := csrRdData x csrRsData
  pc := x.pc
  inst := x.inst
  exception := excp x
  isTrapReturn := decide (x.execType = .mret)
  isFenceI := decide (x.execType = .fenceI)

/-! ## Branches -/

/-- The target of a branch or a jump; that of `jalr` is even. -/
def brTarget : Word :=
  match x.brOp with
  | .nop => 0
  | .jalr => (x.rs1Data + x.imm).extractLsb' 1 31 ++ (0 : BitVec 1)
  | _ => x.pc + x.imm

/-- The branch is taken. -/
def brTaken : Bool :=
  match x.brOp with
  | .nop => false
  | .jal | .jalr => true
  | .beq => decide (result x csrRsData = 0)
  | .bne => decide (result x csrRsData ≠ 0)
  | .blt | .bltu => (result x csrRsData).getLsbD 0
  | .bge | .bgeu => !(result x csrRsData).getLsbD 0

/-- `rd` is a link register. -/
def isLink (rd : BitVec 5) : Bool := decide (rd = 1) || decide (rd = 5)

/-- An unconditional jump. -/
def isUncond : Bool := decide (x.brOp = .jal) || decide (x.brOp = .jalr)

/-- A jump that links is a call. -/
def isCall : Bool := isUncond x && isLink x.rdAddr

/-- A jump to a link register that does not link is a return. -/
def isRet : Bool := decide (x.brOp = .jalr) && isLink x.rs1Addr && decide (x.rdAddr = 0)

/-- `valid_br`: a branch or jump leaves the stage. -/
def validBr (fire : Bool) : Bool := fire && decide (x.brOp ≠ .nop)

/-- The entry that the branch target buffer gets. -/
def btbW (fire : Bool) : BTBWrite where
  en := validBr x fire
  pc := x.pc
  target := brTarget x
  btype := if isCall x then .call else if isRet x then .ret
    else if isUncond x then .jump else .branch

/-- The prediction was another outcome, or another target of a branch that was predicted as taken.
-/
def predictMismatch : Bool :=
  decide (x.predictTaken ≠ brTaken x csrRsData) ||
    x.predictTaken && decide (x.predictTarget ≠ brTarget x)

/-- The fetch went the wrong way. -/
def brMispredict (fire : Bool) : Bool := validBr x fire && predictMismatch x csrRsData

/-- Where it should have gone. -/
def correctTarget : Word := if brTaken x csrRsData then brTarget x else x.pc + 4

/-! ## Hazard -/

/-- What the instruction in EXU is going to write. -/
def hazard (valid : Bool) : HazardInfo where
  valid := valid && x.rdWe
  rd := x.rdAddr
  data := exOut x csrRsData
  dataValid := decide (x.execType = .alu) || decide (x.execType = .csr)

end EXU

end Bailuwan
