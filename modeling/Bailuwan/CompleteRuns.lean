/-
# Complete runs

On a memory that answers and responds the core goes through every state of the reference model:
for each number of instructions there is a cycle in which exactly their events have happened, and
the registers and the memory are those of the reference model (`runs_to_completion`).  So nothing
that the program does is lost or held back forever.
-/
import Bailuwan.CoreProgress
import Bailuwan.RetireLog

namespace Bailuwan

open Synchronous AXI4 Nemu

namespace Core

variable {init : Bytes} {p : Program init} {c : Core} {io : In} {m : Memory} {n : ℕ}

/-- In cycle `t` the core is where the reference model is after `n` instructions. -/
structure After (init : Bytes) (r : machine.Run) (n t : ℕ) : Prop where
  log : r.log emit t = refLog (fun k => (reference init k).events) n
  regs : ∀ rs : BitVec 5, rs.toNat < 16 → (r.st t).regFile.read rs = (reference init n).gpr rs
  mem : (memory r t).bytes init = (reference init n).mem

/-- The simulation of the reference model along a run, and its log. -/
structure Simulates (p : Program init) (r : machine.Run) : Prop where
  sim : ∀ t, Sim p (r.st t) (memory r t) (retired r t)
  log : ∀ t, r.log emit t = refLog (fun k => (reference init k).events) (retired r t) ++
    (reference init (retired r t)).storeEvents.take (r.st t).storeProgress

/-- On a memory that answers, the core simulates the reference model. -/
theorem simulates (p : Program init) (r : machine.Run) (hans : Answered init r) : Simulates p r :=
  ⟨sim p r hans, log_eq p r hans⟩

/-- When an instruction retires the next one has not stored anything. -/
theorem Sim.mem_of_retire {io : In} {m' : Memory} (h : Sim p c m n) (hv : c.wbuIn.valid = true)
    (h' : Sim p (c.next io) m' (n + 1)) : m'.bytes init = (reference init (n + 1)).mem := by
  have hst := h.pipeline.drained hv
  have hidx : c.lsuIndex n = n + 1 := by rw [lsuIndex, hv, Bool.toNat_true]
  have hacc := h.accessed_next (i := io)
  simp only [LSU.nextState, hst, Bool.not_false, Bool.and_true] at hacc
  rw [h'.mem]
  cases hlsu : c.lsuIn.valid with
  | false => simp [hacc, hlsu]
  | true =>
      rcases LSU.entryState_cases c.lsuIn.bits with he | he | he
      · have hns := mem_succ_of_no_store p (h.lsuIn hlsu) (by simp [stores_of_entryState, he])
        rw [hidx] at hns
        simpa [hacc, hlsu, he] using hns
      · simp [hacc, hlsu, he]
      · simp [hacc, hlsu, he]

/-- A retirement counts one instruction more. -/
theorem retired_of_retire {r : machine.Run} {u : ℕ} (hv : RetiresAt r u) :
    retired r (u + 1) = retired r u + 1 := by
  have hnext : retired r (u + 1) = (r.st u).lsuIndex (retired r u) := rfl
  rw [hnext, lsuIndex, show (r.st u).wbuIn.valid = true from hv, Bool.toNat_true]

/-- The cycle after a retirement. -/
theorem Simulates.after_retire {r : machine.Run} (h : Simulates p r) {u : ℕ}
    (hv : RetiresAt r u) : After init r (retired r u + 1) (u + 1) := by
  have hsim := h.sim u
  have hidx := retired_of_retire hv
  have hsim' := h.sim (u + 1)
  rw [hidx] at hsim'
  constructor
  · have hzero := hsim.storeProgress_of_idle (i := r.inp u) (hsim.pipeline.drained hv)
    rw [h.log, hidx]
    rw [lsuIndex, show (r.st u).wbuIn.valid = true from hv, Bool.toNat_true] at hzero
    rw [st_succ, hzero, List.append_nil]
  · exact hsim'.regs
  · rw [st_succ] at hsim'
    exact hsim.mem_of_retire hv hsim'

/-- The number of retired instructions stays until the next one retires. -/
theorem retired_next {r : machine.Run} {t : ℕ} (h : ¬ RetiresAt r t) :
    retired r (t + 1) = retired r t := by
  have hnext : retired r (t + 1) = (r.st t).lsuIndex (retired r t) := rfl
  rw [hnext, lsuIndex, show (r.st t).wbuIn.valid = false from Bool.eq_false_of_not_eq_true h]
  rfl

/-- A run that simulates the reference model and does not stop comes to every state of it. -/
theorem Simulates.reaches {r : machine.Run} (h : Simulates p r) (hresp : Responds r) (n : ℕ) :
    ∃ t, After init r n t := by
  have hall : ∃ t, retired r t = n ∧ After init r n t := by
    induction n with
    | zero => exact ⟨0, rfl, rfl, (h.sim 0).regs, rfl⟩
    | succ n ih =>
        obtain ⟨t, hn, -⟩ := ih
        obtain ⟨u, -, hu, hv, -⟩ := exists_first_at (p := fun u => retired r u = n) hn
          (fun u _ hu hno => (retired_next hno).trans hu) (hresp.retires t)
        have hafter := h.after_retire hv
        rw [hu] at hafter
        exact ⟨u + 1, (retired_of_retire hv).trans (by rw [hu]), hafter⟩
  exact hall.imp fun _ ht => ht.2

/-- **Every program runs to completion**: the core comes to every state of the reference model. -/
theorem runs_to_completion (p : Program init) (r : machine.Run) (hans : Answered init r)
    (hresp : Responds r) (n : ℕ) : ∃ t, After init r n t :=
  (simulates p r hans).reaches hresp n

/-- A thousand instructions of the loop that stores a word. -/
theorem runs_to_completion_storeLoop :
    ∃ t, After (ofWords storeLoop) (onMemory (ofWords storeLoop)) 1000 t :=
  runs_to_completion storeLoop_program (onMemory _) (onMemory_answered _) (onMemory_responds _) 1000

end Core

end Bailuwan
