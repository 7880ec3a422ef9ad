/-
# Stale predictions

Control flow is intact in every run without a stale prediction (`control_flow_intact`),
in particular in the runs of a `Program`.  A program that overwrites one of its jumps is
fetched with the prediction made for the jump, and nothing corrects it.
-/
import Bailuwan.Refinement

namespace Bailuwan

open Synchronous AXI4

namespace Core

/-- **Control flow is intact** in every run without a stale prediction. -/
theorem control_flow_intact (r : machine.Run) (h : ∀ t, ¬ StalePrediction (r.st t)) :
    ControlFlowIntact r := by
  intro t u htu hft hfu hnone hflush
  have hexp : ∀ v, t + 1 ≤ v → v ≤ u → expected r v = (r.st t).successor := by
    intro v hv
    induction v, hv using Nat.le_induction with
    | base =>
        intro _
        exact frontNext_of_exuFire hft (hflush t le_rfl htu) (h t)
    | succ v hv ih =>
        intro hvu
        have hnf := hnone v (by omega) (by omega)
        have hnx : (r.st v).exuFlush = false := by
          by_contra hx
          rw [exuFire_of_exuFlush (by simpa using hx)] at hnf
          exact absurd hnf (by decide)
        have hstay : expected r (v + 1) = (r.st v).frontNext (expected r v) := rfl
        rw [hstay, frontNext, hnx, hflush v (by omega) (by omega), hnf]
        exact ih (by omega)
  have hpc := (frontLinks r u).exuIn_pc (Bool.and_eq_true_iff.mp hfu).1
  rw [hpc, hexp u htu le_rfl]

/-- A program without stale predictions. -/
theorem storeLoop_control_flow_intact : ControlFlowIntact (onMemory (ofWords storeLoop)) :=
  control_flow_intact (onMemory (ofWords storeLoop)) fun t =>
    (sim storeLoop_program _ (onMemory_answered _) t).not_stalePrediction

/-! ## An overwritten jump -/

/-- A program that overwrites its first jump with `addi x0, x0, 0` and goes back to it. -/
def overwrittenJump : Word → Word := fun a =>
  if a = 0x30000000 then 0x0080006f       -- jal x0, 8
  else if a = 0x30000008 then 0x01300113  -- addi x2, x0, 0x13
  else if a = 0x3000000c then 0x300000b7  -- lui x1, 0x30000
  else if a = 0x30000010 then 0x0020a023  -- sw x2, 0(x1)
  else if a = 0x30000014 then 0x0000100f  -- fence.i
  else if a = 0x30000018 then 0xfe9ff06f  -- jal x0, -24
  else 0x00000013

set_option maxRecDepth 100000 in
/-- In cycle 57 the execution stage takes the `addi` that was a jump, and in cycle 59 the
target of the jump. -/
theorem overwrittenJump_not_intact :
    ¬ ControlFlowIntact (onMemory (ofWords overwrittenJump)) := by
  have hrun := onMemory_check_from (m := ofWords overwrittenJump) (t := 57)
    (P := fun st =>
      ((st 0).exuFire = true ∧ (st 0).wbuFlush = false ∧ (st 0).successor = 0x30000004) ∧
      ((st 1).exuFire = false ∧ (st 1).wbuFlush = false) ∧
      (st 2).exuFire = true ∧ (st 2).exuIn.bits.pc = 0x30000008) (by decide +kernel)
  simp only [Nat.reduceAdd] at hrun
  obtain ⟨h57, h58, h59⟩ := hrun
  intro h
  have hpc := h 57 59 (by decide) h57.1 h59.1
    (fun v h1 h2 => by rw [show v = 58 by omega]; exact h58.1)
    (fun v h1 h2 => by
      rcases (show v = 57 ∨ v = 58 by omega) with rfl | rfl
      · exact h57.2.1
      · exact h58.2)
  rw [h59.2, h57.2.2] at hpc
  exact absurd hpc (by decide)

end Core

end Bailuwan
