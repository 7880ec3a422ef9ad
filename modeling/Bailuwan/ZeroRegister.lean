/-
# Register 0

The write enable and the forwarding network compare five-bit register specifiers, the
register file has four-bit addresses.  No stage forwards to specifier 0, and a write to
it is dropped, but specifier 16 has the same register in the file: register 0 reads as 0
in a run if and only if no instruction writes anything else to specifier 16
(`readsZero_iff`).
-/
import Bailuwan.Refinement

namespace Bailuwan

open Synchronous AXI4

/-- The specifiers of the register at address 0. -/
theorem RegFile.idx_eq_zero : ∀ a : BitVec 5, idx a = 0 ↔ a = 0 ∨ a = 16 := by decide

/-- Register 0 after a write. -/
theorem RegFile.read_zero_next (f : RegFile) (rd : BitVec 5) (v : Word) (we : Bool) :
    (f.next rd v we).read 0 = if we = true ∧ rd = 16 then v else f.read 0 := by
  by_cases hw : we = true ∧ rd = 16
  · rw [if_pos hw, hw.1, hw.2]
    exact Function.update_self (f := f.regs) (RegFile.idx 16) v
  · rw [if_neg hw, read, next]
    split_ifs with hwe
    · simp only [Bool.and_eq_true, decide_eq_true_eq] at hwe
      have hidx : idx rd ≠ 0 := fun h =>
        ((idx_eq_zero rd).mp h).elim hwe.2 fun h16 => hw ⟨hwe.1, h16⟩
      exact Function.update_of_ne hidx.symm ..
    · rfl

namespace Core

variable (c : Core)

/-- Specifier 0 reads as 0, at the port of the register file and behind the forwarding
network; then it does so for an instruction that is handed over (`ReadsZero.operands`). -/
structure ReadsZero : Prop where
  port : c.regFile.read 0 = 0
  forward : IDU.forwardReg c.hazards 0 (c.regFile.read 0) = 0

/-- Write-back writes a value other than 0 to specifier 16. -/
def WritesAlias : Prop :=
  WBU.rdWe c.wbuIn = true ∧ c.wbuIn.bits.rdAddr = 16 ∧ c.wbuIn.bits.lsOut ≠ 0

variable {c}

/-- The forwarding network adds nothing to the port. -/
theorem readsZero_iff_port : ReadsZero c ↔ c.regFile.read 0 = 0 :=
  ⟨ReadsZero.port, fun h => ⟨h, by rw [forwardReg_zero, h]⟩⟩

/-- The operands the decoder hands over for specifier 0. -/
theorem ReadsZero.operands (h : ReadsZero c) {x : IDUOut} (hx : c.iduOut = some x) :
    (x.rs1Addr = 0 → x.rs1Data = 0) ∧ (x.rs2Addr = 0 → x.rs2Data = 0) := by
  unfold iduOut at hx
  split_ifs at hx
  rw [Option.some_inj] at hx
  subst hx
  simp only [IDU.bits]
  refine ⟨fun h0 => ?_, fun h0 => ?_⟩ <;> rw [h0] <;> exact h.forward

/-- A cycle keeps register 0, unless it writes to it by another name. -/
theorem readsZero_next {io : In} (h : ReadsZero c) : ReadsZero (c.next io) ↔ ¬ WritesAlias c := by
  have hnext : (c.next io).regFile.read 0 = if WBU.rdWe c.wbuIn = true ∧ c.wbuIn.bits.rdAddr = 16
      then c.wbuIn.bits.lsOut else c.regFile.read 0 := RegFile.read_zero_next ..
  rw [readsZero_iff_port, hnext, WritesAlias, ← and_assoc]
  split_ifs with hw
  · rw [not_and_not_right]
    exact ⟨fun hv _ => hv, fun hv => hv hw⟩
  · exact ⟨fun _ hall => hw hall.1, fun _ => h.port⟩

/-- **Register 0 is 0** throughout a run if and only if nothing but 0 is ever written to
specifier 16. -/
theorem readsZero_iff (r : machine.Run) :
    (∀ t, ReadsZero (r.st t)) ↔ ∀ t, ¬ WritesAlias (r.st t) := by
  constructor
  · intro h t
    have hnext := h (t + 1)
    rw [r.step t] at hnext
    exact (readsZero_next (h t)).mp hnext
  · intro h t
    induction t with
    | zero => exact readsZero_iff_port.mpr (r.start.regFile _)
    | succ t ih =>
        rw [r.step t]
        exact (readsZero_next ih).mpr (h t)

/-- A program that begins with `lui x16, 0x12345`. -/
def luiX16 (a : Word) : Word := if a = 0x30000000 then 0x12345837 else 0x00000013

set_option maxRecDepth 100000 in

/-- `lui x16, 1` makes it nonzero. -/
theorem luiX16_not_readsZero : ¬ ∀ (r : machine.Run) (t : ℕ), ReadsZero (r.st t) := by
  intro h
  have hcheck := onMemory_check (m := ofWords luiX16) (t := 15)
    (P := fun c => c.regFile.read 0 = 0x12345000) (by decide +kernel)
  have hzero := (h (onMemory (ofWords luiX16)) 15).port
  rw [hcheck] at hzero
  exact absurd hzero (by decide)

end Core

end Bailuwan
