/-
# The instruction listing of RV32E

The base instructions of RV32E with Zicsr, Zifencei and `mret`, as masks and values: a
word encodes an instruction if its masked bits have the value of the listing.  An
instruction of RV32E names only registers `x0` to `x15` in the fields it uses.

No word encodes two instructions (`Mnemonic.encodes_unique`).
-/
import Mathlib.Data.BitVec
import Mathlib.Data.Fintype.Defs

namespace Rv32e

/-- The instructions that the core is to understand. -/
inductive Mnemonic
  | lui | auipc | jal | jalr
  | beq | bne | blt | bge | bltu | bgeu
  | lb | lh | lw | lbu | lhu
  | sb | sh | sw
  | addi | slti | sltiu | xori | ori | andi | slli | srli | srai
  | add | sub | sll | slt | sltu | xor | srl | sra | or | and
  | fence | ecall | ebreak
  | csrrw | csrrs | csrrc | csrrwi | csrrsi | csrrci
  | mret | fenceI
  deriving DecidableEq, Repr

/-- The listing in its order. -/
def Mnemonic.all : List Mnemonic :=
  [.lui, .auipc, .jal, .jalr, .beq, .bne, .blt, .bge, .bltu, .bgeu, .lb, .lh, .lw, .lbu, .lhu,
   .sb, .sh, .sw, .addi, .slti, .sltiu, .xori, .ori, .andi, .slli, .srli, .srai,
   .add, .sub, .sll, .slt, .sltu, .xor, .srl, .sra, .or, .and, .fence, .ecall, .ebreak,
   .csrrw, .csrrs, .csrrc, .csrrwi, .csrrsi, .csrrci, .mret, .fenceI]

instance : Fintype Mnemonic where
  elems := ⟨Mnemonic.all, by decide⟩
  complete m := by cases m <;> decide

/-- The fixed bits of an instruction. -/
structure Encoding where
  mask : BitVec 32
  value : BitVec 32
  deriving DecidableEq, Repr

namespace Mnemonic

/-- The bits that the manual fixes for an instruction. -/
def encoding : Mnemonic → Encoding
  | .lui => ⟨0x0000007f, 0x00000037⟩
  | .auipc => ⟨0x0000007f, 0x00000017⟩
  | .jal => ⟨0x0000007f, 0x0000006f⟩
  | .jalr => ⟨0x0000707f, 0x00000067⟩
  | .beq => ⟨0x0000707f, 0x00000063⟩
  | .bne => ⟨0x0000707f, 0x00001063⟩
  | .blt => ⟨0x0000707f, 0x00004063⟩
  | .bge => ⟨0x0000707f, 0x00005063⟩
  | .bltu => ⟨0x0000707f, 0x00006063⟩
  | .bgeu => ⟨0x0000707f, 0x00007063⟩
  | .lb => ⟨0x0000707f, 0x00000003⟩
  | .lh => ⟨0x0000707f, 0x00001003⟩
  | .lw => ⟨0x0000707f, 0x00002003⟩
  | .lbu => ⟨0x0000707f, 0x00004003⟩
  | .lhu => ⟨0x0000707f, 0x00005003⟩
  | .sb => ⟨0x0000707f, 0x00000023⟩
  | .sh => ⟨0x0000707f, 0x00001023⟩
  | .sw => ⟨0x0000707f, 0x00002023⟩
  | .addi => ⟨0x0000707f, 0x00000013⟩
  | .slti => ⟨0x0000707f, 0x00002013⟩
  | .sltiu => ⟨0x0000707f, 0x00003013⟩
  | .xori => ⟨0x0000707f, 0x00004013⟩
  | .ori => ⟨0x0000707f, 0x00006013⟩
  | .andi => ⟨0x0000707f, 0x00007013⟩
  | .slli => ⟨0xfe00707f, 0x00001013⟩
  | .srli => ⟨0xfe00707f, 0x00005013⟩
  | .srai => ⟨0xfe00707f, 0x40005013⟩
  | .add => ⟨0xfe00707f, 0x00000033⟩
  | .sub => ⟨0xfe00707f, 0x40000033⟩
  | .sll => ⟨0xfe00707f, 0x00001033⟩
  | .slt => ⟨0xfe00707f, 0x00002033⟩
  | .sltu => ⟨0xfe00707f, 0x00003033⟩
  | .xor => ⟨0xfe00707f, 0x00004033⟩
  | .srl => ⟨0xfe00707f, 0x00005033⟩
  | .sra => ⟨0xfe00707f, 0x40005033⟩
  | .or => ⟨0xfe00707f, 0x00006033⟩
  | .and => ⟨0xfe00707f, 0x00007033⟩
  | .fence => ⟨0x0000707f, 0x0000000f⟩
  | .ecall => ⟨0xffffffff, 0x00000073⟩
  | .ebreak => ⟨0xffffffff, 0x00100073⟩
  | .csrrw => ⟨0x0000707f, 0x00001073⟩
  | .csrrs => ⟨0x0000707f, 0x00002073⟩
  | .csrrc => ⟨0x0000707f, 0x00003073⟩
  | .csrrwi => ⟨0x0000707f, 0x00005073⟩
  | .csrrsi => ⟨0x0000707f, 0x00006073⟩
  | .csrrci => ⟨0x0000707f, 0x00007073⟩
  | .mret => ⟨0xffffffff, 0x30200073⟩
  | .fenceI => ⟨0x0000707f, 0x0000100f⟩

variable (m : Mnemonic) (w : BitVec 32)

/-- A word is an encoding of the instruction. -/
def Encodes : Prop := w &&& m.encoding.mask = m.encoding.value

instance : Decidable (m.Encodes w) := inferInstanceAs (Decidable (_ = _))

/-! ## Registers -/

/-- The fields that name a register. -/
def usesRd : Mnemonic → Bool
  | .beq | .bne | .blt | .bge | .bltu | .bgeu | .sb | .sh | .sw => false
  | .fence | .ecall | .ebreak | .mret | .fenceI => false
  | _ => true

/-- The instruction has a first source register. -/
def usesRs1 : Mnemonic → Bool
  | .lui | .auipc | .jal => false
  | .csrrwi | .csrrsi | .csrrci => false
  | .fence | .ecall | .ebreak | .mret | .fenceI => false
  | _ => true

/-- The instruction has a second source register. -/
def usesRs2 : Mnemonic → Bool
  | .beq | .bne | .blt | .bge | .bltu | .bgeu | .sb | .sh | .sw => true
  | .add | .sub | .sll | .slt | .sltu | .xor | .srl | .sra | .or | .and => true
  | _ => false

/-- The registers an instruction uses are `x0` to `x15`. -/
structure RegsOk : Prop where
  rd : m.usesRd = true → (w.extractLsb' 7 5).toNat < 16
  rs1 : m.usesRs1 = true → (w.extractLsb' 15 5).toNat < 16
  rs2 : m.usesRs2 = true → (w.extractLsb' 20 5).toNat < 16

variable {m w}

/-! ## Uniqueness -/

/-- Two encodings disagree on a bit that both fix. -/
theorem encoding_apart : ∀ m m' : Mnemonic, m ≠ m' →
    m.encoding.value &&& m'.encoding.mask ≠ m'.encoding.value &&& m.encoding.mask := by
  decide +kernel

/-- A word encodes one mnemonic at most. -/
theorem encodes_unique {m' : Mnemonic} (h : m.Encodes w) (h' : m'.Encodes w) : m = m' := by
  by_contra hne
  refine encoding_apart m m' hne ?_
  rw [← h, ← h']
  simp only [BitVec.and_assoc, BitVec.and_comm m.encoding.mask]

end Mnemonic

/-- The words that are instructions. -/
def IsInst (w : BitVec 32) : Prop := ∃ m : Mnemonic, m.Encodes w ∧ m.RegsOk w

end Rv32e
