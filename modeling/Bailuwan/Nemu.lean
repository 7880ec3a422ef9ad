/-
# The reference model (`nemu/src/isa/riscv32/inst.c`)

NEMU executes one instruction at a time.  `decodeExec` looks the instruction up in the
list of its patterns, decodes the operands by the type of the pattern and runs the body
of the pattern.  The body is given as its `Effect`: what it assigns to `R(rd)`, to the
CSRs, to memory and to `dnpc`.
-/
import Mathlib.Data.List.Basic
import Mathlib.Logic.Function.Basic
import Bailuwan.InstPat
import Bailuwan.Memory

namespace Bailuwan

namespace Nemu

/-! ## State -/

/-- `riscv32_CPU_state` with the physical memory. -/
structure CPU where
  gpr : BitVec 5 → Word
  pc : Word
  csr : BitVec 12 → Word
  privLevel : BitVec 8
  mem : Bytes

/-- `vaddr_read`, of 1, 2 or 4 bytes. -/
def read (mem : Bytes) (addr : Word) (len : ℕ) : Word :=
  match len with
  | 1 => (mem addr).setWidth 32
  | 2 => (mem (addr + 1) ++ mem addr).setWidth 32
  | 4 => wordAt mem addr
  | _ => 0

/-- `vaddr_write` of the low `len` bytes. -/
def write (mem : Bytes) (addr : Word) (len : ℕ) (data : Word) : Bytes := fun a =>
  if (a - addr).toNat < len then byteOf data (a - addr).toNat else mem a

/-! ## Operands -/

/-- `TYPE_R` and so on. -/
inductive InstType
  | R
  | I
  | S
  | B
  | U
  | J
  | CSR
  | CSRImm
  | N
  deriving DecidableEq, Repr

/-- `BITS(x, hi, lo)`. -/
def BITS (x : Word) (hi lo : ℕ) : Word := (x >>> lo) &&& BitVec.ofNat 32 (2 ^ (hi - lo + 1) - 1)

/-- `SEXT(x, len)`. -/
def SEXT (x : Word) (len : ℕ) : Word := (x.setWidth len).signExtend 32

/-- `immI` -/
def immI (i : Word) : Word := SEXT (BITS i 31 20) 12

/-- `immU` -/
def immU (i : Word) : Word := SEXT (BITS i 31 12) 20 <<< 12

/-- `immS` -/
def immS (i : Word) : Word := SEXT (BITS i 31 25) 7 <<< 5 ||| BITS i 11 7

/-- `immB` -/
def immB (i : Word) : Word :=
  SEXT (BITS i 31 31) 1 <<< 12 ||| BITS i 7 7 <<< 11 ||| BITS i 30 25 <<< 5 ||| BITS i 11 8 <<< 1

/-- `immJ` -/
def immJ (i : Word) : Word :=
  SEXT (BITS i 31 31) 1 <<< 20 ||| BITS i 19 12 <<< 12 ||| BITS i 20 20 <<< 11 |||
    BITS i 30 21 <<< 1

/-- `immCSR` -/
def immCSR (i : Word) : Word := BITS i 19 15

/-- What `decode_operand` sets. -/
structure Operands where
  rd : BitVec 5
  rs1 : BitVec 5
  csr : BitVec 12 := 0
  src1 : Word := 0
  src2 : Word := 0
  imm : Word := 0

/-- `decode_operand`. -/
def decodeOperand (s : CPU) (i : Word) (type : InstType) : Operands :=
  let rs1 : BitVec 5 := (BITS i 19 15).setWidth 5
  let rs2 : BitVec 5 := (BITS i 24 20).setWidth 5
  let rd : BitVec 5 := (BITS i 11 7).setWidth 5
  let csr : BitVec 12 := (BITS i 31 20).setWidth 12
  match type with
  | .R => { rd, rs1, src1 := s.gpr rs1, src2 := s.gpr rs2 }
  | .I => { rd, rs1, src1 := s.gpr rs1, imm := immI i }
  | .S => { rd, rs1, src1 := s.gpr rs1, src2 := s.gpr rs2, imm := immS i }
  | .B => { rd, rs1, src1 := s.gpr rs1, src2 := s.gpr rs2, imm := immB i }
  | .U => { rd, rs1, imm := immU i }
  | .J => { rd, rs1, imm := immJ i }
  | .CSR => { rd, rs1, src1 := s.gpr rs1, csr := csr }
  | .CSRImm => { rd, rs1, imm := immCSR i, csr := csr }
  | .N => { rd, rs1 }

/-! ## The instruction bodies -/

/-- A store: address, number of bytes and data. -/
structure Store where
  addr : Word
  len : ℕ
  data : Word
  deriving DecidableEq, Repr

/-- `set_nemu_state`: the program has ended, or an invalid instruction has stopped it. -/
inductive Stop
  | ended (haltRet : Word)
  | abort
  deriving DecidableEq, Repr

/-- What the body of an instruction does. -/
structure Effect where
  dnpc : Word
  rd : Option (BitVec 5 × Word) := none
  store : Option Store := none
  csr : List (BitVec 12 × Word) := []
  stop : Option Stop := none
  deriving DecidableEq, Repr

/-- `riscv_div` -/
def riscvDiv (src1 src2 : Word) : Word :=
  -- division by zero, overflow
  if src2 = 0 then -1
  else if src1 = BitVec.intMin 32 ∧ src2 = -1 then src1
  else src1.sdiv src2

/-- `riscv_divu` -/
def riscvDivu (src1 src2 : Word) : Word := if src2 = 0 then -1 else src1 / src2

/-- `riscv_rem` -/
def riscvRem (src1 src2 : Word) : Word :=
  if src2 = 0 then src1
  else if src1 = BitVec.intMin 32 ∧ src2 = -1 then 0
  else src1.srem src2

/-- `riscv_remu` -/
def riscvRemu (src1 src2 : Word) : Word := if src2 = 0 then src1 else src1 % src2

/-- The second argument of `INSTPAT`. -/
inductive Inst
  | lui | auipc | jal | jalr
  | beq | bne | blt | bge | bltu | bgeu
  | lb | lh | lw | lbu | lhu
  | sb | sh | sw
  | addi | slti | sltiu | xori | ori | andi | slli | srli | srai
  | add | sub | sll | slt | sltu | xor | srl | sra | or | and
  | fence | ecall | ebreak
  | mul | mulh | mulhsu | mulhu | div | divu | rem | remu
  | csrrw | csrrs | csrrc | csrrwi | csrrsi | csrrci
  | mret | fenceI | inv
  deriving DecidableEq, Repr

/-- A shift amount, `x & 0x1f`. -/
def shamt (x : Word) : ℕ := (x &&& 0x1f).toNat

section Bodies

variable (s : CPU) (o : Operands)

/-- An instruction that assigns to `R(rd)` and goes on at `snpc`. -/
def setRd (v : Word) : Effect := { dnpc := s.pc + 4, rd := some (o.rd, v) }

/-- A conditional branch. -/
def branch (taken : Bool) : Effect := { dnpc := if taken then s.pc + o.imm else s.pc + 4 }

/-- `Mw(src1 + imm, len, src2)`. -/
def storeMem (len : ℕ) : Effect :=
  { dnpc := s.pc + 4, store := some ⟨o.src1 + o.imm, len, o.src2⟩ }

/-- `riscv_csrrwi` and the like, which read a CSR into `R(rd)` and change it. -/
def csrOp (f : Word → Word) : Effect :=
  { dnpc := s.pc + 4, rd := some (o.rd, s.csr o.csr), csr := [(o.csr, f (s.csr o.csr))] }

/-- `isa_raise_intr(NO, epc)`, the writes to the CSRs. -/
def raiseIntr (no epc : Word) : List (BitVec 12 × Word) :=
  [(CSR.mepc, epc), (CSR.mtval, epc), (CSR.mcause, no)]

/-- The body of an instruction; none where `todo` panics. -/
def execBody : Inst → Option Effect
  | .lui => some (setRd s o o.imm)
  | .auipc => some (setRd s o (s.pc + o.imm))
  | .jal => some { dnpc := s.pc + o.imm, rd := some (o.rd, s.pc + 4) }
  | .jalr => some { dnpc := (o.src1 + o.imm) &&& ~~~ 1, rd := some (o.rd, s.pc + 4) }
  | .beq => some (branch s o (decide (o.src1 = o.src2)))
  | .bne => some (branch s o (decide (o.src1 ≠ o.src2)))
  | .blt => some (branch s o (o.src1.slt o.src2))
  | .bge => some (branch s o (!o.src1.slt o.src2))
  | .bltu => some (branch s o (o.src1.ult o.src2))
  | .bgeu => some (branch s o (!o.src1.ult o.src2))
  | .lb => some (setRd s o (SEXT (read s.mem (o.src1 + o.imm) 1) 8))
  | .lh => some (setRd s o (SEXT (read s.mem (o.src1 + o.imm) 2) 16))
  | .lw => some (setRd s o (read s.mem (o.src1 + o.imm) 4))
  | .lbu => some (setRd s o (read s.mem (o.src1 + o.imm) 1))
  | .lhu => some (setRd s o (read s.mem (o.src1 + o.imm) 2))
  | .sb => some (storeMem s o 1)
  | .sh => some (storeMem s o 2)
  | .sw => some (storeMem s o 4)
  | .addi => some (setRd s o (o.src1 + o.imm))
  | .slti => some (setRd s o (if o.src1.slt o.imm then 1 else 0))
  | .sltiu => some (setRd s o (if o.src1.ult o.imm then 1 else 0))
  | .xori => some (setRd s o (o.src1 ^^^ o.imm))
  | .ori => some (setRd s o (o.src1 ||| o.imm))
  | .andi => some (setRd s o (o.src1 &&& o.imm))
  | .slli => some (setRd s o (o.src1 <<< shamt o.imm))
  | .srli => some (setRd s o (o.src1 >>> shamt o.imm))
  | .srai => some (setRd s o (o.src1.sshiftRight (shamt o.imm)))
  | .add => some (setRd s o (o.src1 + o.src2))
  | .sub => some (setRd s o (o.src1 - o.src2))
  | .sll => some (setRd s o (o.src1 <<< shamt o.src2))
  | .slt => some (setRd s o (if o.src1.slt o.src2 then 1 else 0))
  | .sltu => some (setRd s o (if o.src1.ult o.src2 then 1 else 0))
  | .xor => some (setRd s o (o.src1 ^^^ o.src2))
  | .srl => some (setRd s o (o.src1 >>> shamt o.src2))
  | .sra => some (setRd s o (o.src1.sshiftRight (shamt o.src2)))
  | .or => some (setRd s o (o.src1 ||| o.src2))
  | .and => some (setRd s o (o.src1 &&& o.src2))
  | .fence => none
  | .ecall => some { dnpc := s.csr CSR.mtvec, csr := raiseIntr (s.privLevel.setWidth 32 + 8) s.pc }
  | .ebreak => some { dnpc := s.pc + 4, stop := some (.ended (s.gpr 10)) }
  | .mul => some (setRd s o ((o.src1.signExtend 64 * o.src2.signExtend 64).setWidth 32))
  | .mulh =>
      some (setRd s o (((o.src1.signExtend 64 * o.src2.signExtend 64).sshiftRight 32).setWidth 32))
  | .mulhsu => some (setRd s o (((o.src1.signExtend 64 * o.src2.setWidth 64) >>> 32).setWidth 32))
  | .mulhu => some (setRd s o (((o.src1.setWidth 64 * o.src2.setWidth 64) >>> 32).setWidth 32))
  | .div => some (setRd s o (riscvDiv o.src1 o.src2))
  | .divu => some (setRd s o (riscvDivu o.src1 o.src2))
  | .rem => some (setRd s o (riscvRem o.src1 o.src2))
  | .remu => some (setRd s o (riscvRemu o.src1 o.src2))
  | .csrrw => some (csrOp s o fun _ => s.gpr o.rs1)
  | .csrrs => some (csrOp s o fun old => old ||| s.gpr o.rs1)
  | .csrrc => some (csrOp s o fun old => old &&& ~~~ s.gpr o.rs1)
  | .csrrwi => some (csrOp s o fun _ => o.imm)
  | .csrrsi => some (csrOp s o fun old => old ||| o.imm)
  | .csrrci => some (csrOp s o fun old => old &&& ~~~ o.imm)
  | .mret => some { dnpc := s.csr CSR.mepc }
  | .fenceI => some { dnpc := s.pc + 4 }
  | .inv => some { dnpc := s.pc + 4, stop := some .abort }

end Bodies

/-! ## The patterns -/

def FENCE : BitPat := { funct3 := some 0b000, opcode := 0b00011 }
def MUL : BitPat := { funct7 := some 0b0000001, funct3 := some 0b000, opcode := 0b01100 }
def MULH : BitPat := { funct7 := some 0b0000001, funct3 := some 0b001, opcode := 0b01100 }
def MULHSU : BitPat := { funct7 := some 0b0000001, funct3 := some 0b010, opcode := 0b01100 }
def MULHU : BitPat := { funct7 := some 0b0000001, funct3 := some 0b011, opcode := 0b01100 }
def DIV : BitPat := { funct7 := some 0b0000001, funct3 := some 0b100, opcode := 0b01100 }
def DIVU : BitPat := { funct7 := some 0b0000001, funct3 := some 0b101, opcode := 0b01100 }
def REM : BitPat := { funct7 := some 0b0000001, funct3 := some 0b110, opcode := 0b01100 }
def REMU : BitPat := { funct7 := some 0b0000001, funct3 := some 0b111, opcode := 0b01100 }

open InstPat in
/-- The `INSTPAT` list without its last row, which matches everything. -/
def instPats : List (BitPat × Inst × InstType) :=
  [(LUI, .lui, .U), (AUIPC, .auipc, .U), (JAL, .jal, .J), (JALR, .jalr, .I),
   (BEQ, .beq, .B), (BNE, .bne, .B), (BLT, .blt, .B), (BGE, .bge, .B), (BLTU, .bltu, .B),
   (BGEU, .bgeu, .B),
   (LB, .lb, .I), (LH, .lh, .I), (LW, .lw, .I), (LBU, .lbu, .I), (LHU, .lhu, .I),
   (SB, .sb, .S), (SH, .sh, .S), (SW, .sw, .S),
   (ADDI, .addi, .I), (SLTI, .slti, .I), (SLTIU, .sltiu, .I), (XORI, .xori, .I),
   (ORI, .ori, .I), (ANDI, .andi, .I), (SLLI, .slli, .I), (SRLI, .srli, .I), (SRAI, .srai, .I),
   (ADD, .add, .R), (SUB, .sub, .R), (SLL, .sll, .R), (SLT, .slt, .R), (SLTU, .sltu, .R),
   (XOR, .xor, .R), (SRL, .srl, .R), (SRA, .sra, .R), (OR, .or, .R), (AND, .and, .R),
   (FENCE, .fence, .N), (ECALL, .ecall, .N), (EBREAK, .ebreak, .N),
   (MUL, .mul, .R), (MULH, .mulh, .R), (MULHSU, .mulhsu, .R), (MULHU, .mulhu, .R),
   (DIV, .div, .R), (DIVU, .divu, .R), (REM, .rem, .R), (REMU, .remu, .R),
   (CSRRW, .csrrw, .CSR), (CSRRS, .csrrs, .CSR), (CSRRC, .csrrc, .CSR),
   (CSRRWI, .csrrwi, .CSRImm), (CSRRSI, .csrrsi, .CSRImm), (CSRRCI, .csrrci, .CSRImm),
   (MRET, .mret, .N), (FENCE_I, .fenceI, .N)]

/-- The first pattern that matches. -/
def decode (inst : Word) : Inst × InstType :=
  match instPats.find? fun row => row.1.matches inst with
  | some row => row.2
  | none => (.inv, .N)

/-! ## One instruction -/

/-- `inst_fetch`. -/
def CPU.inst (s : CPU) : Word := read s.mem s.pc 4

/-- `decode_exec` up to the assignments it makes. -/
def decodeExec (s : CPU) : Option Effect :=
  execBody s (decodeOperand s s.inst (decode s.inst).2) (decode s.inst).1

/-- The state after the assignments; `R(0)` is reset to 0. -/
def CPU.apply (s : CPU) (e : Effect) : CPU where
  gpr :=
    let regs := match e.rd with
      | some (rd, v) => Function.update s.gpr rd v
      | none => s.gpr
    Function.update regs 0 0
  pc := e.dnpc
  csr := e.csr.foldl (fun f w => Function.update f w.1 w.2) s.csr
  privLevel := s.privLevel
  mem := match e.store with
    | some st => write s.mem st.addr st.len st.data
    | none => s.mem

/-- The state after `n` instructions; it stays where `todo` panics. -/
def run (s : CPU) : ℕ → CPU
  | 0 => s
  | n + 1 => (decodeExec (run s n)).elim (run s n) (run s n).apply

/-- `restart()`: the state out of reset, on a memory with the given contents. -/
def restart (pc : Word) (mem : Bytes) : CPU where
  gpr := fun _ => 0
  pc := pc
  csr := Function.update (Function.update (Function.update (fun _ => 0) CSR.mstatus 0x1800)
    CSR.mvendorid 0x79737978) CSR.marchid 25100251
  privLevel := 0b11
  mem := mem

end Nemu

end Bailuwan
