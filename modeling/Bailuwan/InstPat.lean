/-
# Instruction patterns and operation codes (`constants/`)

A `BitPat` is a row of the instruction listings, field by field: seven bits of
`funct7`, the two source registers, `funct3`, the destination and the opcode, where
`none` stands for a field of question marks.  The two low bits are always `11`.
-/
import Bailuwan.AXI4

namespace Bailuwan

/-! ## Patterns -/

structure BitPat where
  funct7 : Option (BitVec 7) := none
  rs2 : Option (BitVec 5) := none
  rs1 : Option (BitVec 5) := none
  funct3 : Option (BitVec 3) := none
  rd : Option (BitVec 5) := none
  opcode : BitVec 5
  deriving DecidableEq, Repr

/-- A field of question marks admits every value. -/
def fieldMatches {w : ℕ} (p : Option (BitVec w)) (x : BitVec w) : Bool :=
  match p with
  | none => true
  | some v => decide (x = v)

/-- `inst === pat`. -/
def BitPat.matches (p : BitPat) (inst : Word) : Bool :=
  fieldMatches p.funct7 (inst.extractLsb' 25 7) && fieldMatches p.rs2 (inst.extractLsb' 20 5) &&
    fieldMatches p.rs1 (inst.extractLsb' 15 5) && fieldMatches p.funct3 (inst.extractLsb' 12 3) &&
    fieldMatches p.rd (inst.extractLsb' 7 5) && decide (inst.extractLsb' 2 5 = p.opcode) &&
    decide (inst.extractLsb' 0 2 = 0b11)

namespace InstPat

-- RV32I base instruction set
def LUI : BitPat := { opcode := 0b01101 }
def AUIPC : BitPat := { opcode := 0b00101 }
def JAL : BitPat := { opcode := 0b11011 }
def JALR : BitPat := { funct3 := some 0b000, opcode := 0b11001 }
def BEQ : BitPat := { funct3 := some 0b000, opcode := 0b11000 }
def BNE : BitPat := { funct3 := some 0b001, opcode := 0b11000 }
def BLT : BitPat := { funct3 := some 0b100, opcode := 0b11000 }
def BGE : BitPat := { funct3 := some 0b101, opcode := 0b11000 }
def BLTU : BitPat := { funct3 := some 0b110, opcode := 0b11000 }
def BGEU : BitPat := { funct3 := some 0b111, opcode := 0b11000 }
def LB : BitPat := { funct3 := some 0b000, opcode := 0b00000 }
def LH : BitPat := { funct3 := some 0b001, opcode := 0b00000 }
def LW : BitPat := { funct3 := some 0b010, opcode := 0b00000 }
def LBU : BitPat := { funct3 := some 0b100, opcode := 0b00000 }
def LHU : BitPat := { funct3 := some 0b101, opcode := 0b00000 }
def SB : BitPat := { funct3 := some 0b000, opcode := 0b01000 }
def SH : BitPat := { funct3 := some 0b001, opcode := 0b01000 }
def SW : BitPat := { funct3 := some 0b010, opcode := 0b01000 }
def ADDI : BitPat := { funct3 := some 0b000, opcode := 0b00100 }
def SLTI : BitPat := { funct3 := some 0b010, opcode := 0b00100 }
def SLTIU : BitPat := { funct3 := some 0b011, opcode := 0b00100 }
def XORI : BitPat := { funct3 := some 0b100, opcode := 0b00100 }
def ORI : BitPat := { funct3 := some 0b110, opcode := 0b00100 }
def ANDI : BitPat := { funct3 := some 0b111, opcode := 0b00100 }
def SLLI : BitPat := { funct7 := some 0b0000000, funct3 := some 0b001, opcode := 0b00100 }
def SRLI : BitPat := { funct7 := some 0b0000000, funct3 := some 0b101, opcode := 0b00100 }
def SRAI : BitPat := { funct7 := some 0b0100000, funct3 := some 0b101, opcode := 0b00100 }
def ADD : BitPat := { funct7 := some 0b0000000, funct3 := some 0b000, opcode := 0b01100 }
def SUB : BitPat := { funct7 := some 0b0100000, funct3 := some 0b000, opcode := 0b01100 }
def SLL : BitPat := { funct7 := some 0b0000000, funct3 := some 0b001, opcode := 0b01100 }
def SLT : BitPat := { funct7 := some 0b0000000, funct3 := some 0b010, opcode := 0b01100 }
def SLTU : BitPat := { funct7 := some 0b0000000, funct3 := some 0b011, opcode := 0b01100 }
def XOR : BitPat := { funct7 := some 0b0000000, funct3 := some 0b100, opcode := 0b01100 }
def SRL : BitPat := { funct7 := some 0b0000000, funct3 := some 0b101, opcode := 0b01100 }
def SRA : BitPat := { funct7 := some 0b0100000, funct3 := some 0b101, opcode := 0b01100 }
def OR : BitPat := { funct7 := some 0b0000000, funct3 := some 0b110, opcode := 0b01100 }
def AND : BitPat := { funct7 := some 0b0000000, funct3 := some 0b111, opcode := 0b01100 }
def FENCE : BitPat := { funct3 := some 0b000, opcode := 0b00011 }
def ECALL : BitPat :=
  { funct7 := some 0, rs2 := some 0, rs1 := some 0, funct3 := some 0, rd := some 0
    opcode := 0b11100 }
def EBREAK : BitPat :=
  { funct7 := some 0, rs2 := some 1, rs1 := some 0, funct3 := some 0, rd := some 0
    opcode := 0b11100 }

-- Zicsr
def CSRRW : BitPat := { funct3 := some 0b001, opcode := 0b11100 }
def CSRRS : BitPat := { funct3 := some 0b010, opcode := 0b11100 }
def CSRRC : BitPat := { funct3 := some 0b011, opcode := 0b11100 }
def CSRRWI : BitPat := { funct3 := some 0b101, opcode := 0b11100 }
def CSRRSI : BitPat := { funct3 := some 0b110, opcode := 0b11100 }
def CSRRCI : BitPat := { funct3 := some 0b111, opcode := 0b11100 }

-- Trap return
def MRET : BitPat :=
  { funct7 := some 0b0011000, rs2 := some 0b00010, rs1 := some 0, funct3 := some 0, rd := some 0
    opcode := 0b11100 }

-- Zifencei
def FENCE_I : BitPat := { funct3 := some 0b001, opcode := 0b00011 }

end InstPat

/-! ## Operation codes -/

/-- `InstFmt`, with `C` for the CSR instructions and `E` for an illegal one. -/
inductive InstFmt
  | R
  | I
  | S
  | B
  | U
  | J
  | C
  | E
  deriving DecidableEq, Repr

inductive OperType
  | rs1
  | rs2
  | imm
  | zero
  | four
  | pc
  | csr
  deriving DecidableEq, Repr

inductive ExecType
  | alu
  | lsu
  | ecall
  | mret
  | ebreak
  | csr
  | fenceI
  deriving DecidableEq, Repr

inductive ALUOp
  | add
  | sub
  | sll
  | slt
  | sltu
  | xor
  | srl
  | sra
  | or
  | and
  deriving DecidableEq, Repr

inductive BrOp
  | nop
  | jal
  | jalr
  | beq
  | bne
  | blt
  | bge
  | bltu
  | bgeu
  deriving DecidableEq, Repr

inductive LSUOp
  | nop
  | lb
  | lh
  | lw
  | lbu
  | lhu
  | sb
  | sh
  | sw
  deriving DecidableEq, Repr

inductive CSROp
  | nop
  | rw
  | rs
  | rc
  deriving DecidableEq, Repr

namespace CSR

def mstatus : BitVec 12 := 0x300
def mtvec : BitVec 12 := 0x305
def mepc : BitVec 12 := 0x341
def mcause : BitVec 12 := 0x342
def mtval : BitVec 12 := 0x343
def mcycle : BitVec 12 := 0xb00
def mcycleh : BitVec 12 := 0xb80
def mvendorid : BitVec 12 := 0xf11
def marchid : BitVec 12 := 0xf12

end CSR

end Bailuwan
