/-
# Which steps the differential test skips (`sdb/difftest.cpp`)

The simulator runs the reference model one instruction along with every instruction that
retires, but for loads and stores of devices, which the reference model does not have.
Whether a load or store accesses a device is worked out after it has retired, from the
registers it leaves behind: a load into its own base register can have moved the base
(`LosesBase`), and then the answer is about another address (`skipsExactly_iff`).
-/
import Bailuwan.DecoderAcceptance
import Bailuwan.InFlight
import Bailuwan.InstAgree
import Bailuwan.LaneMemory
import Bailuwan.Simulator

namespace Bailuwan

open Synchronous AXI4 Rv32e Nemu

/-! ## The differential test -/

namespace Difftest

open DUTMemory

/-- `CPUProxy::reg`: the bindings are those of 16 registers, and there is nothing beyond. -/
def reg (f : RegFile) (idx : Word) : Option Word :=
  if idx.toNat < 16 then some (f.regs (idx.setWidth 4)) else none

/-- `is_store`, by the opcode. -/
def isStore (inst : Word) : Bool := decide (BITS inst 6 0 = 0b0100011)

/-- `is_load`, by the opcode. -/
def isLoad (inst : Word) : Bool := decide (BITS inst 6 0 = 0b0000011)

/-- `is_accessing_device`; none where it reads a register that is not bound. -/
def isAccessingDevice (f : RegFile) (inst : Word) : Option Bool :=
  let accesses := fun imm : Word => (reg f (BITS inst 19 15)).map fun src1 => inDevice (src1 + imm)
  if isStore inst then accesses (SEXT (BITS inst 31 25) 7 <<< 5 ||| BITS inst 11 7)
  else if isLoad inst then accesses (SEXT (BITS inst 31 20) 12)
  else some false

/-! ### Loads and stores -/

/-- The rows of loads and stores. -/
theorem control_lsu : ∀ m : Mnemonic, (InstDecodeTable.control m).execType = .lsu →
    m.encoding.mask &&& 0x7f = 0x7f ∧
      ((m.encoding.value &&& 0x7f = 0b0000011 ∧ (InstDecodeTable.control m).fmt = .I ∧
          (InstDecodeTable.control m).we = true) ∨
        (m.encoding.value &&& 0x7f = 0b0100011 ∧ (InstDecodeTable.control m).fmt = .S ∧
          (InstDecodeTable.control m).we = false)) := by
  decide +kernel

/-- A load or a store, as the decoder and the differential test see it. -/
theorem load_or_store {inst : Word} (h : (IDU.decode inst).execType = .lsu) :
    (isStore inst = false ∧ isLoad inst = true ∧ (IDU.decode inst).fmt = .I ∧
        (IDU.decode inst).we = true) ∨
      (isStore inst = true ∧ isLoad inst = false ∧ (IDU.decode inst).fmt = .S ∧
        (IDU.decode inst).we = false) := by
  obtain ⟨m, he, hm⟩ : ∃ m : Mnemonic, m.Encodes inst ∧ m ≠ .fence := by
    by_contra hno
    have hd : IDU.decode inst = InstDecodeTable.default :=
      InstDecodeTable.lookup_of_not_encodes fun m he => by
        by_contra hne
        exact hno ⟨m, he, hne⟩
    rw [hd] at h
    cases h
  have hd : IDU.decode inst = InstDecodeTable.control m := InstDecodeTable.lookup_of_encodes he hm
  rw [hd] at h ⊢
  obtain ⟨hmask, hrow⟩ := control_lsu m h
  have hop : BITS inst 6 0 = m.encoding.value &&& 0x7f := by
    rw [← he, BitVec.and_assoc, hmask]
    simp [BITS]
  rcases hrow with ⟨hv, hrow⟩ | ⟨hv, hrow⟩
  · exact .inl ⟨by rw [isStore, hop, hv]; decide, by rw [isLoad, hop, hv]; decide, hrow⟩
  · exact .inr ⟨by rw [isStore, hop, hv]; decide, by rw [isLoad, hop, hv]; decide, hrow⟩

/-- The script reads the register that the specifier names, if there is one. -/
theorem reg_rs1 (f : RegFile) (inst : Word) : reg f (BITS inst 19 15) =
    if (IDU.rs1 inst).toNat < 16 then some (f.read (IDU.rs1 inst)) else none := by
  have hnat : (BITS inst 19 15).toNat = (IDU.rs1 inst).toNat := by
    rw [BITS_eq, BitVec.toNat_setWidth]
    exact Nat.mod_eq_of_lt (lt_of_lt_of_le (IDU.rs1 inst).isLt (by decide))
  have hidx : (BITS inst 19 15).setWidth 4 = RegFile.idx (IDU.rs1 inst) := by
    apply BitVec.eq_of_toNat_eq
    rw [BitVec.toNat_setWidth, hnat, RegFile.idx, BitVec.extractLsb'_toNat, Nat.shiftRight_zero]
  rw [reg, hnat, hidx]
  rfl

/-- The address the differential test computes, from the registers it is given. -/
theorem isAccessingDevice_eq {inst : Word} (h : (IDU.decode inst).execType = .lsu) (f : RegFile) :
    isAccessingDevice f inst = if (IDU.rs1 inst).toNat < 16 then
      some (inDevice (f.read (IDU.rs1 inst) + IDU.imm inst)) else none := by
  have himmI : SEXT (BITS inst 31 20) 12 = IDU.immI inst := immI_eq inst
  have himmS : SEXT (BITS inst 31 25) 7 <<< 5 ||| BITS inst 11 7 = IDU.immS inst := immS_eq inst
  rw [isAccessingDevice, reg_rs1, himmI, himmS]
  rcases load_or_store h with ⟨hs, hl, hfmt, -⟩ | ⟨hs, -, hfmt, -⟩
  · simp only [hs, hl, IDU.imm, hfmt, Bool.false_eq_true, if_false, if_true]
    split_ifs <;> rfl
  · simp only [hs, IDU.imm, hfmt, if_true]
    split_ifs <;> rfl

end Difftest

/-! ## Instructions in write-back -/

/-- A register after a write, whatever the specifiers. -/
theorem RegFile.read_next_idx (f : RegFile) (rd rs : BitVec 5) (v : Word) (we : Bool) :
    (f.next rd v we).read rs =
      if we = true ∧ rd ≠ 0 ∧ idx rd = idx rs then v else f.read rs := by
  rw [next, read, read]
  by_cases hw : we = true ∧ rd ≠ 0
  · rw [if_pos (by simpa using hw)]
    change Function.update f.regs (idx rd) v (idx rs) = _
    rw [Function.update_apply]
    by_cases hidx : idx rd = idx rs
    · rw [if_pos hidx.symm, if_pos ⟨hw.1, hw.2, hidx⟩]
    · rw [if_neg fun h => hidx h.symm, if_neg fun h => hidx h.2.2]
  · rw [if_neg (by simpa using hw), if_neg fun h => hw ⟨h.1, h.2.1⟩]

namespace Core

open DUTMemory Difftest

variable {c : Core} {io : In} {r : machine.Run} {t : ℕ}

/-- The destination an instruction carries. -/
def Destination (inst : Word) (rd : BitVec 5) (we : Bool) : Prop :=
  rd = IDU.rd inst ∧ we = (IDU.decode inst).we

/-- The later stages write the register that the instruction names. -/
structure CarriesDestination (c : Core) : Prop where
  lsu : c.lsuIn.valid = true →
    Destination c.lsuIn.bits.inst c.lsuIn.bits.rdAddr c.lsuIn.bits.rdWe
  wbu : c.wbuIn.valid = true →
    Destination c.wbuIn.bits.inst c.wbuIn.bits.rdAddr c.wbuIn.bits.rdWe

/-- A cycle keeps the destination of what is on its way. -/
theorem CarriesDestination.next (hp : PipelineInv c) (hd : Decoded c) (h : CarriesDestination c) :
    CarriesDestination (c.next io) := by
  constructor
  · intro hl
    rw [next_lsuIn_valid] at hl
    cases hf : c.wbuFlush with
    | true => simp [hf] at hl
    | false =>
        cases hr : c.lsuInReady with
        | true =>
            have hv : c.exuIn.valid = true := by simpa [hf, hr] using hl
            obtain ⟨hz, o, d1, d2, hb⟩ := hd hv
            rw [next_lsuIn_of_exuFire (by simp [exuFire, hv, hr])]
            simp only [EXU.bits, hb, IDU.bits]
            exact ⟨rfl, rfl⟩
        | false =>
            rw [next_lsuIn_of_not_ready hr]
            exact h.lsu (by simpa [hf, hr] using hl)
  · intro hw
    rw [next_wbuIn_valid, Bool.and_eq_true, decide_eq_true_eq] at hw
    rw [next_wbuIn_bits hw.2]
    exact h.lsu (hp.held (by simp [hw.2]))

/-- It does so in every run. -/
theorem carriesDestination (r : machine.Run) (t : ℕ) : CarriesDestination (r.st t) := by
  induction t with
  | zero => exact ⟨fun h => by simp [r.start.lsuIn] at h, fun h => by simp [r.start.wbuIn] at h⟩
  | succ t ih =>
      rw [st_succ]
      exact ih.next (pipelineInv r t) (decoded r t)

/-- A load or store retires. -/
def RetiresAccess (c : Core) : Prop :=
  c.wbuIn.valid = true ∧ (IDU.decode c.wbuIn.bits.inst).execType = .lsu

/-- The address of the load or store that retires, from its base register before the write-back of
this instruction.  A write to `x17` to `x31` lands in the register that its low four bits name, so
after one the base may hold another value than in the ISA; the test has stopped at such a write. -/
def accessAddr (c : Core) : Word :=
  c.regFile.read (IDU.rs1 c.wbuIn.bits.inst) + IDU.imm c.wbuIn.bits.inst

/-- **The statement about the differential test**, which looks at an instruction in the cycle
after its write-back. -/
def SkipsExactly (r : machine.Run) : Prop :=
  ∀ t, RetiresAccess (r.st t) → isAccessingDevice (r.st (t + 1)).regFile
    (r.st t).wbuIn.bits.inst = some (inDevice (r.st t).accessAddr)

/-- A load into its own base register moves the base between devices and memory. -/
structure LosesBase (c : Core) : Prop where
  noExcp : c.wbuIn.bits.exception.valid = false
  load : isLoad c.wbuIn.bits.inst = true
  rd : IDU.rd c.wbuIn.bits.inst ≠ 0
  same : RegFile.idx (IDU.rd c.wbuIn.bits.inst) = RegFile.idx (IDU.rs1 c.wbuIn.bits.inst)
  moves : inDevice (c.wbuIn.bits.lsOut + IDU.imm c.wbuIn.bits.inst) ≠ inDevice c.accessAddr

/-- The base register after the write-back. -/
theorem base_next (h : CarriesDestination c) (ha : RetiresAccess c) :
    (c.next io).regFile.read (IDU.rs1 c.wbuIn.bits.inst) =
      if c.wbuIn.bits.exception.valid = false ∧ isLoad c.wbuIn.bits.inst = true ∧
        IDU.rd c.wbuIn.bits.inst ≠ 0 ∧
        RegFile.idx (IDU.rd c.wbuIn.bits.inst) = RegFile.idx (IDU.rs1 c.wbuIn.bits.inst)
      then c.wbuIn.bits.lsOut else c.regFile.read (IDU.rs1 c.wbuIn.bits.inst) := by
  obtain ⟨hrd, hwe⟩ := h.wbu ha.1
  have hload : (IDU.decode c.wbuIn.bits.inst).we = isLoad c.wbuIn.bits.inst := by
    rcases load_or_store ha.2 with ⟨-, hl, -, hw⟩ | ⟨-, hl, -, hw⟩ <;> rw [hl, hw]
  have hrdWe : WBU.rdWe c.wbuIn = (isLoad c.wbuIn.bits.inst && !c.wbuIn.bits.exception.valid) := by
    rw [WBU.rdWe, ha.1, hwe, hload, Bool.true_and]
  have hnext : (c.next io).regFile = c.regFile.next c.wbuIn.bits.rdAddr c.wbuIn.bits.lsOut
      (WBU.rdWe c.wbuIn) := rfl
  rw [hnext, RegFile.read_next_idx, hrd, hrdWe]
  refine if_congr ?_ rfl rfl
  rw [Bool.and_eq_true, Bool.not_eq_true']
  tauto

/-- **One retired load or store** is treated right if and only if its base register is
bound and it does not lose its base. -/
theorem isAccessingDevice_next (h : CarriesDestination c) (ha : RetiresAccess c) :
    isAccessingDevice (c.next io).regFile c.wbuIn.bits.inst = some (inDevice c.accessAddr) ↔
      (IDU.rs1 c.wbuIn.bits.inst).toNat < 16 ∧ ¬ LosesBase c := by
  rw [isAccessingDevice_eq ha.2, base_next h ha]
  by_cases hlt : (IDU.rs1 c.wbuIn.bits.inst).toNat < 16
  · rw [if_pos hlt, Option.some_inj]
    split_ifs with hw
    · refine ⟨fun heq => ⟨hlt, fun hl => hl.moves heq⟩, fun hno => ?_⟩
      by_contra hne
      exact hno.2 ⟨hw.1, hw.2.1, hw.2.2.1, hw.2.2.2, hne⟩
    · exact ⟨fun _ => ⟨hlt, fun hl => hw ⟨hl.noExcp, hl.load, hl.rd, hl.same⟩⟩, fun _ => rfl⟩
  · rw [if_neg hlt]
    exact ⟨fun heq => (nomatch heq), fun hno => absurd hno.1 hlt⟩

/-- **The differential test skips exactly the device accesses** of a run if and only if no load
loses its base, and every base register is bound. -/
theorem skipsExactly_iff (r : machine.Run) : SkipsExactly r ↔
    ∀ t, RetiresAccess (r.st t) →
      (IDU.rs1 (r.st t).wbuIn.bits.inst).toNat < 16 ∧ ¬ LosesBase (r.st t) := by
  refine forall_congr' fun t => forall_congr' fun ha => ?_
  rw [st_succ]
  exact isAccessingDevice_next (carriesDestination r t) ha

instance : Decidable (RetiresAccess c) := inferInstanceAs (Decidable (_ ∧ _))

instance : Decidable (LosesBase c) :=
  decidable_of_iff (c.wbuIn.bits.exception.valid = false ∧ isLoad c.wbuIn.bits.inst = true ∧
      IDU.rd c.wbuIn.bits.inst ≠ 0 ∧
      RegFile.idx (IDU.rd c.wbuIn.bits.inst) = RegFile.idx (IDU.rs1 c.wbuIn.bits.inst) ∧
      inDevice (c.wbuIn.bits.lsOut + IDU.imm c.wbuIn.bits.inst) ≠ inDevice c.accessAddr)
    ⟨fun ⟨h1, h2, h3, h4, h5⟩ => ⟨h1, h2, h3, h4, h5⟩,
      fun ⟨h1, h2, h3, h4, h5⟩ => ⟨h1, h2, h3, h4, h5⟩⟩

/-- `lui x1, 0x30000; lw x1, 8(x1)`: a load from the flash. -/
def loadOwnBase (a : Word) : Word :=
  if a = 0x30000000 then 0x300000b7
  else if a = 0x30000004 then 0x0080a083
  else 0x00000013

set_option maxRecDepth 100000 in
/-- The comparison is skipped, as for an access to a device at `0x13 + 8`. -/
theorem loadOwnBase_not_skipsExactly : ¬ SkipsExactly (onMemory (ofWords loadOwnBase)) := by
  intro h
  have hcheck := onMemory_check (m := ofWords loadOwnBase) (t := 25)
    (P := fun c => RetiresAccess c ∧ LosesBase c) (by decide +kernel)
  have hone := h 25 hcheck.1
  rw [st_succ, isAccessingDevice_next (carriesDestination _ 25) hcheck.1] at hone
  exact hone.2 hcheck.2

end Core

end Bailuwan
