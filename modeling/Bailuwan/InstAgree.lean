/-
# The instructions of RV32I on the core and on the reference model

The decoder of the core and the one of the reference model begin with the same patterns,
those of the RV32I instructions `rv32i`.  For these instructions, the execution stage
and the load and store unit together have the effect of the reference model
(`decodeExec_eq`), given the operands the registers hold.
-/
import Mathlib.Tactic.FinCases
import Bailuwan.Lanes

namespace Bailuwan

/-! ## Fields and immediates -/

namespace Nemu

/-- `BITS` is a part of the word. -/
theorem BITS_eq (x : Word) (hi lo : ℕ) :
    BITS x hi lo = (x.extractLsb' lo (hi - lo + 1)).setWidth 32 := by
  ext j hj
  have hb : (BitVec.ofNat 32 (2 ^ (hi - lo + 1) - 1))[j] = decide (j < hi - lo + 1) := by
    rw [← BitVec.getLsbD_eq_getElem, BitVec.getLsbD_ofNat, Nat.testBit_two_pow_sub_one]
    simp [hj]
  by_cases h : j < hi - lo + 1 <;> simp [BITS, hb, h, Bool.and_comm]

/-- `SEXT` of `BITS` is the part with its sign. -/
theorem SEXT_BITS (x : Word) (hi lo : ℕ) (hl : hi - lo + 1 ≤ 32) :
    SEXT (BITS x hi lo) (hi - lo + 1) = (x.extractLsb' lo (hi - lo + 1)).signExtend 32 := by
  rw [SEXT, BITS_eq, BitVec.setWidth_setWidth_of_le _ hl, BitVec.setWidth_eq]

/-- The bits of a part are the part. -/
theorem setWidth_BITS (x : Word) (hi lo : ℕ) (hl : hi - lo + 1 ≤ 32) :
    (BITS x hi lo).setWidth (hi - lo + 1) = x.extractLsb' lo (hi - lo + 1) := by
  rw [BITS_eq, BitVec.setWidth_setWidth_of_le _ hl, BitVec.setWidth_eq]

variable (i : Word)

/-- The immediate of loads is the same in both decoders. -/
theorem immI_eq : immI i = IDU.immI i := SEXT_BITS i 31 20 (by decide)

/-- The extension of a concatenation. -/
theorem signExtend_append {m n : ℕ} (x : BitVec m) (y : BitVec n) (hm : m ≠ 0) :
    (x ++ y).signExtend 32 = x.signExtend 32 <<< n ||| y.setWidth 32 := by
  apply BitVec.eq_of_getLsbD_eq
  intro j hj
  rw [BitVec.getLsbD_or, BitVec.getLsbD_shiftLeft, BitVec.getLsbD_setWidth,
    BitVec.getLsbD_signExtend, BitVec.getLsbD_signExtend, BitVec.getLsbD_append,
    BitVec.msb_append, if_neg hm]
  by_cases hn : j < n
  · simp [hn, hj, Nat.lt_add_left m hn]
  · have hlt : j - n < m ↔ j < m + n := by omega
    rw [BitVec.getLsbD_of_ge y j (Nat.not_lt.mp hn)]
    simp [hn, hj, hlt, show j - n < 32 by omega]

/-- The four fields of a jump offset, of which the last bit is not encoded. -/
theorem signExtend_fields {k l m n : ℕ} (w : BitVec k) (x : BitVec l) (y : BitVec m) (z : BitVec n)
    (hk : k ≠ 0) : (w ++ x ++ y ++ z ++ (0 : BitVec 1)).signExtend 32 =
      w.signExtend 32 <<< (l + m + n + 1) ||| x.setWidth 32 <<< (m + n + 1) |||
        y.setWidth 32 <<< (n + 1) ||| z.setWidth 32 <<< 1 := by
  rw [signExtend_append _ _ (by omega), signExtend_append _ _ (by omega),
    signExtend_append _ _ (by omega), signExtend_append _ _ hk]
  simp only [BitVec.shiftLeft_or_distrib, ← BitVec.shiftLeft_add, BitVec.ofNat_eq_ofNat,
    BitVec.setWidth_zero, BitVec.or_zero, Nat.add_assoc]

/-- The immediates are the same, field by field. -/
theorem immS_eq : immS i = IDU.immS i := by
  rw [immS, SEXT_BITS i 31 25 (by decide), BITS_eq, IDU.immS, signExtend_append _ _ (by decide)]

/-- The immediate of branches is the same in both decoders. -/
theorem immB_eq : immB i = IDU.immB i := by
  rw [immB, SEXT_BITS i 31 31 (by decide), BITS_eq, BITS_eq, BITS_eq, IDU.immB,
    signExtend_fields _ _ _ _ (by decide)]

/-- The immediate of `lui` is the same in both decoders. -/
theorem immU_eq : immU i = IDU.immU i := by
  have hext := signExtend_append (i.extractLsb' 12 20) (0 : BitVec 12) (by decide)
  rw [BitVec.signExtend_eq] at hext
  rw [immU, SEXT_BITS i 31 12 (by decide), IDU.immU, hext]
  exact BitVec.or_zero.symm

/-- The immediate of jumps is the same in both decoders. -/
theorem immJ_eq : immJ i = IDU.immJ i := by
  rw [immJ, SEXT_BITS i 31 31 (by decide), BITS_eq, BITS_eq, BITS_eq, IDU.immJ,
    signExtend_fields _ _ _ _ (by decide)]

/-- The first source is the same in both decoders. -/
theorem rs1_eq : (BITS i 19 15).setWidth 5 = IDU.rs1 i := setWidth_BITS i 19 15 (by decide)

/-- The second source is the same in both decoders. -/
theorem rs2_eq : (BITS i 24 20).setWidth 5 = IDU.rs2 i := setWidth_BITS i 24 20 (by decide)

/-- The destination is the same in both decoders. -/
theorem rd_eq : (BITS i 11 7).setWidth 5 = IDU.rd i := setWidth_BITS i 11 7 (by decide)

/-- A shift amount is taken modulo 32. -/
theorem shamt_eq (x : Word) : shamt x = x.toNat % 32 := by
  simp only [shamt, BitVec.toNat_and]
  exact Nat.and_two_pow_sub_one_eq_mod x.toNat 5

/-- Clearing bit 0 of a jump target. -/
theorem clear_bit_zero (x : Word) : x &&& 0xfffffffe#32 = x.extractLsb' 1 31 ++ 0#1 := by
  have hx := x.isLt
  have hclear : (x &&& 0xfffffffe#32).toNat = x.toNat / 2 * 2 := toNat_and_not_low x 1
  apply BitVec.eq_of_toNat_eq
  rw [hclear, toNat_append_eq, toNat_field, BitVec.toNat_ofNat]
  omega

/-- The sign is the highest bit of the part. -/
theorem SEXT_setWidth {w : ℕ} (x : BitVec w) (h : w ≤ 32) :
    SEXT (x.setWidth 32) w = x.signExtend 32 := by
  rw [SEXT, BitVec.setWidth_setWidth_of_le _ h, BitVec.setWidth_eq]

theorem sub_eq_zero_iff (a b : Word) : a - b = 0#32 ↔ a = b := by
  rw [BitVec.sub_eq_iff_eq_add, BitVec.zero_add]

theorem ite_eq_boolWord (b : Bool) : (if b = true then 1#32 else 0#32) = boolWord b := rfl

@[simp] theorem boolWord_bit (b : Bool) : (boolWord b)[0] = b := by cases b <;> rfl

/-- The number of bytes an instruction accesses. -/
def Inst.len : Inst → Option ℕ
  | .lb | .lbu | .sb => some 1
  | .lh | .lhu | .sh => some 2
  | .lw | .sw => some 4
  | _ => none

/-- The operands of the next instruction. -/
def CPU.operands (s : CPU) : Operands := decodeOperand s s.inst (decode s.inst).2

/-- The number of bytes the next instruction accesses. -/
def CPU.accessLen (s : CPU) : Option ℕ := (decode s.inst).1.len

/-- The address the next instruction accesses, if it is a load or a store. -/
def CPU.dataAddr (s : CPU) : Word := s.operands.src1 + s.operands.imm

/-- The register fields that the types give a meaning. -/
def InstType.readsRs1 : InstType → Bool
  | .R | .I | .S | .B | .CSR => true
  | _ => false

/-- The formats with a second source register. -/
def InstType.readsRs2 : InstType → Bool
  | .R | .S | .B => true
  | _ => false

/-- The formats with a destination register. -/
def InstType.writesRd : InstType → Bool
  | .R | .I | .U | .J | .CSR | .CSRImm => true
  | _ => false

end Nemu

/-! ## The shared patterns -/

/-- The rows of the two tables for the same instruction. -/
structure SharedRow where
  pat : BitPat
  entry : DecodeEntry
  inst : Nemu.Inst
  type : Nemu.InstType

/-- The rows that both tables begin with. -/
def sharedRows : List SharedRow :=
  List.zipWith (fun x y => ⟨x.1, x.2, y.2.1, y.2.2⟩) (InstDecodeTable.table.take 37)
    (Nemu.instPats.take 37)

/-- LUI, AUIPC, JAL, JALR, the branches, loads, stores and the ALU instructions. -/
def rv32i : List BitPat := sharedRows.map SharedRow.pat

/-- The instruction is one of the base integer instructions. -/
def IsRv32i (inst : Word) : Prop := ∃ p ∈ rv32i, p.matches inst = true

/-- The first rows of the hardware's table are the shared ones. -/
theorem table_eq_sharedRows : InstDecodeTable.table =
    sharedRows.map (fun r => (r.pat, r.entry)) ++ InstDecodeTable.table.drop 37 := by
  decide

/-- The first rows of NEMU's table are the shared ones. -/
theorem instPats_eq_sharedRows : Nemu.instPats =
    sharedRows.map (fun r => (r.pat, r.inst, r.type)) ++ Nemu.instPats.drop 37 := by
  decide

/-- Both decoders take the same row. -/
theorem exists_sharedRow {inst : Word} (h : IsRv32i inst) :
    ∃ r ∈ sharedRows, IDU.decode inst = r.entry ∧ Nemu.decode inst = (r.inst, r.type) := by
  obtain ⟨p, hp, hm⟩ := h
  obtain ⟨r₀, hr₀, rfl⟩ := List.mem_map.mp hp
  cases hf : sharedRows.find? fun r => r.pat.matches inst with
  | none => exact absurd hm (by simpa using List.find?_eq_none.mp hf r₀ hr₀)
  | some r =>
      refine ⟨r, List.mem_of_find?_eq_some hf, ?_, ?_⟩
      · have hfind : sharedRows.find? ((fun row : BitPat × DecodeEntry => row.1.matches inst) ∘
            fun r => (r.pat, r.entry)) = some r := hf
        rw [IDU.decode, InstDecodeTable.lookup, table_eq_sharedRows, List.find?_append,
          List.find?_map, hfind]
        rfl
      · have hfind : sharedRows.find?
            ((fun row : BitPat × Nemu.Inst × Nemu.InstType => row.1.matches inst) ∘
              fun r => (r.pat, r.inst, r.type)) = some r := hf
        rw [Nemu.decode, instPats_eq_sharedRows, List.find?_append, List.find?_map, hfind]
        rfl

/-- What holds of every shared row holds of the two decoders. -/
theorem decode_of_rows {P : DecodeEntry → Nemu.Inst → Nemu.InstType → Prop}
    (hP : ∀ r ∈ sharedRows, P r.entry r.inst r.type) {inst : Word} (h : IsRv32i inst) :
    P (IDU.decode inst) (Nemu.decode inst).1 (Nemu.decode inst).2 := by
  obtain ⟨r, hr, hd, hn⟩ := exists_sharedRow h
  rw [hd, hn]
  exact hP r hr

/-! ## The effect of an instruction -/

/-- The effect of a decoded instruction on the core: where the execution stage goes on,
what write-back gets and what the load and store unit writes. -/
def coreEffect (x : IDUOut) (csr : Word) (mem : Bytes) : Nemu.Effect where
  dnpc := EXU.correctTarget x csr
  rd :=
    if x.rdWe then
      some (x.rdAddr, LSU.lsOut ⟨.waitReady, alignedWord mem (EXU.result x csr), false⟩
        (EXU.bits x csr))
    else none
  store :=
    if x.lsuOp.stores then x.lsuOp.len.map fun n => ⟨EXU.result x csr, n, x.rs2Data⟩ else none

/-- The decoder has the next instruction of `s`, and its operands where it reads them. -/
structure Operand (s : Nemu.CPU) (o : IFUOut) (d1 d2 : Word) : Prop where
  pc : o.pc = s.pc
  inst : o.inst = s.inst
  noExcp : o.exception.valid = false
  rs1 : IDU.rs1Read s.inst = true → d1 = s.gpr (IDU.rs1 s.inst)
  rs2 : IDU.rs2Read s.inst = true → d2 = s.gpr (IDU.rs2 s.inst)

open Nemu in
/-- **One instruction**: the core has the effect of the reference model. -/
theorem decodeExec_eq {s : CPU} {o : IFUOut} {d1 d2 csr : Word} (h : IsRv32i s.inst)
    (ho : Operand s o d1 d2)
    (ha : ∀ n, s.accessLen = some n → s.dataAddr.toNat % n = 0) :
    decodeExec s = some (coreEffect (IDU.bits [] o d1 d2) csr s.mem) := by
  obtain ⟨r, hr, hd, hn⟩ := exists_sharedRow h
  obtain ⟨hpc, hinst, hno, h1, h2⟩ := ho
  simp only [CPU.dataAddr, CPU.operands, CPU.accessLen, decodeOperand, hn, rs1_eq, rs2_eq,
    immI_eq, immS_eq] at ha
  simp only [IDU.rs1Read, IDU.rs2Read, hd] at h1 h2
  simp only [decodeExec, hn, decodeOperand, rs1_eq, rs2_eq, rd_eq, immI_eq, immS_eq, immB_eq,
    immU_eq, immJ_eq]
  simp only [coreEffect, EXU.correctTarget, EXU.brTaken, EXU.brTarget, EXU.result, EXU.oper1,
    EXU.oper2, IDU.bits, hinst, hpc, hd, IDU.imm, LSU.lsOut, LSU.selectedLoadedData, LSU.reqOp,
    EXU.bits, EXU.excp, IDU.excp, hno, EXU.exOut, ALU]
  fin_cases hr <;>
    simp only [Inst.len, Option.some_inj, forall_eq', reduceCtorEq, IsEmpty.forall_iff,
      forall_const] at h1 h2 ha <;>
    simp [execBody, setRd, branch, storeMem, EXU.oper, IDU.forwardReg, LSUOp.stores, LSUOp.len,
      ite_eq_boolWord, sub_eq_zero_iff, shamt_eq, clear_bit_zero, lbSel_alignedWord, Nemu.read,
      SEXT_setWidth, *]
  -- what is left are the loads of half words and words, where the address is aligned
  · rw [lhSel_alignedWord _ ha]
    rfl
  · rw [alignedWord_of_aligned _ ha]
  · rw [lhSel_alignedWord _ ha]
    rfl

open Nemu in
/-- The address of the load and store unit. -/
theorem result_eq_dataAddr {s : CPU} {o : IFUOut} {d1 d2 csr : Word} (h : IsRv32i s.inst)
    (ho : Operand s o d1 d2) (hop : (IDU.decode s.inst).lsuOp ≠ .nop) :
    EXU.result (IDU.bits [] o d1 d2) csr = s.dataAddr := by
  obtain ⟨r, hr, hd, hn⟩ := exists_sharedRow h
  obtain ⟨-, hinst, -, h1, -⟩ := ho
  simp only [IDU.rs1Read, hd] at h1
  rw [hd] at hop
  simp only [CPU.dataAddr, CPU.operands, decodeOperand, hn, rs1_eq, immI_eq, immS_eq,
    EXU.result, EXU.oper1, EXU.oper2, EXU.oper, IDU.bits, hinst, hd, IDU.imm, IDU.forwardReg]
  fin_cases hr <;>
    first
      | exact absurd rfl hop
      | simp only [forall_const] at h1
        simp [ALU, h1]

end Bailuwan
