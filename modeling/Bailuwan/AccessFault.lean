/-
# Access faults of loads and stores

A response that is not OKAY is latched in `access_fault` until the unit is idle again.
`accessFault_iff` says that the flag is set exactly for the instruction whose own
transaction got such a response.  The cause it is reported with is right for loads; a
faulting store is reported as a page fault (`precise_iff`).
-/
import Bailuwan.LSUTransaction

namespace Bailuwan

open Synchronous AXI4

/-- A response, to a read or to a write, that is not OKAY. -/
def AXI4.badResponse (o : Out) (i : In) : Bool :=
  rFire o i && decide (i.r.bits.resp ≠ AXIResp.OKAY) ||
    bFire o i && decide (i.b.bits.resp ≠ AXIResp.OKAY)

namespace LSUStage

variable (r : machine.Run)

/-- The instruction that leaves the unit in `t`, with its exception. -/
def leaves (t : ℕ) : LSUOut := (r.st t).unit.bits (r.st t).reg.bits

/-- The transaction between `a` and `t` gets a response that is not OKAY. -/
def Faulted (a t : ℕ) : Prop :=
  ∃ u, a < u ∧ u < t ∧ badResponse (r.st u).memOut (r.inp u).mem = true

/-- The cause of an access fault. -/
def faultCause (b : EXUOut) : Word :=
  if (LSU.reqOp b).stores then ExceptionCode.StoreAMOAccessFault else ExceptionCode.LoadAccessFault

/-- **The statement about access faults**, for the instruction taken in `a` and presented in
`t`: it leaves with an access fault at its address if one of its responses is not OKAY, and
with the exception it came with, or none, if all of them are. -/
structure Precise (a t : ℕ) : Prop where
  faulted : Faulted r a t →
    (leaves r t).exception = ⟨true, faultCause (r.st t).reg.bits, (r.st t).reg.bits.lsuAddr⟩
  quiet : ¬ Faulted r a t →
    (leaves r t).exception.valid = (r.st t).reg.bits.exception.valid
  kept : (r.st t).reg.bits.exception.valid = true →
    (leaves r t).exception = (r.st t).reg.bits.exception

variable {r} {a t : ℕ}

/-! ## The flag -/

/-- A unit that gets a response has an access in flight. -/
theorem accesses_of_badResponse (hserves : (r.st t).unit.Serves (r.st t).reg.bits)
    (h : badResponse (r.st t).memOut (r.inp t).mem = true) :
    LSU.entryState (r.st t).reg.bits ≠ .waitReady := by
  simp only [badResponse, rFire, bFire, memOut, LSU.memOut, Bool.or_eq_true, Bool.and_eq_true,
    decide_eq_true_eq] at h
  rcases h with ⟨⟨-, hst⟩, -⟩ | ⟨⟨-, hst⟩, -⟩ <;>
    · rw [LSU.Serves, hst] at hserves
      rw [hserves]
      decide

/-- A bad response is kept until the instruction leaves. -/
theorem faulted_succ (h : a < t) :
    Faulted r a (t + 1) ↔
      badResponse (r.st t).memOut (r.inp t).mem = true ∨ Faulted r a t := by
  constructor
  · rintro ⟨u, h1, h2, h3⟩
    rcases Nat.lt_or_ge u t with hu | hu
    · exact .inr ⟨u, h1, hu, h3⟩
    · rw [show u = t by omega] at h3
      exact .inl h3
  · rintro (h3 | ⟨u, h1, h2, h3⟩)
    · exact ⟨t, h, by omega, h3⟩
    · exact ⟨u, h1, by omega, h3⟩

/-- **The flag belongs to the instruction**: it is set if and only if a response since the
unit took the instruction was not OKAY, and then the instruction is a load or a store. -/
theorem accessFault_iff (h : LastAt (fun u => (r.st u).unit.state = .idle) a t)
    (hbusy : (r.st t).unit.state ≠ .idle) :
    ((r.st t).unit.accessFault = true ↔ Faulted r a t) ∧
      (Faulted r a t → LSU.entryState (r.st t).reg.bits ≠ .waitReady) := by
  have hflag : ∀ u, (r.st (u + 1)).unit.accessFault = if (r.st u).unit.state = .idle then false
      else if badResponse (r.st u).memOut (r.inp u).mem then true
      else (r.st u).unit.accessFault := by
    intro u
    rw [st_succ]
    rfl
  refine LastAt.since h hbusy (fun _ => ?_) fun u hau hlast hidle hnext ih => ?_
  · -- the instruction has been taken in this cycle, which clears the flag
    have hno : ¬ Faulted r a (a + 1) := by
      rintro ⟨u, h1, h2, -⟩
      omega
    rw [hflag, if_pos h.2.1]
    exact ⟨iff_of_false (by decide) hno, fun hf => absurd hf hno⟩
  · obtain ⟨h1, h2⟩ := ih
    have hserves := (tally_eq r hlast hidle).2.1
    have hbits : (r.st (u + 1)).reg.bits = (r.st u).reg.bits := by
      rw [st_succ] at hnext ⊢
      exact reg_next_of_busy hidle hnext
    rw [hflag, if_neg hidle, faulted_succ hau, hbits]
    constructor
    · cases hb : badResponse (r.st u).memOut (r.inp u).mem with
      | true => simp
      | false => simpa using h1
    · rintro (hb | hf)
      · exact accesses_of_badResponse hserves hb
      · exact h2 hf

/-! ## What leaves the unit -/

/-- An instruction that accesses memory has no exception from before. -/
theorem reqOp_of_accesses {b : EXUOut} (h : LSU.entryState b ≠ .waitReady) :
    b.exception.valid = false := by
  by_contra hv
  rw [Bool.not_eq_false] at hv
  exact h (by simp [LSU.entryState, LSU.reqOp, hv])

/-- The stores of the unit are those of its operation. -/
theorem isStore_eq (b : EXUOut) : LSU.isStore b = (LSU.reqOp b).stores := by
  unfold LSU.isStore
  cases LSU.reqOp b <;> rfl

/-- The exception of a faulting instruction, as the unit reports it. -/
theorem leaves_of_faulted (h : Presents r a t) (hf : Faulted r a t) :
    (leaves r t).exception =
      ⟨true, if (LSU.reqOp (r.st t).reg.bits).stores then ExceptionCode.StoreAMOPageFault
        else ExceptionCode.LoadAccessFault, (r.st t).reg.bits.lsuAddr⟩ := by
  have hwait : (r.st t).unit.state = .waitReady := by simpa [LSU.outValid] using h.2
  obtain ⟨hflag, haccess⟩ := accessFault_iff h.1 (by simp [hwait])
  have hv := reqOp_of_accesses (haccess hf)
  simp [leaves, LSU.bits, LSU.excp, hv, hflag.mpr hf, isStore_eq]

/-- An instruction without a fault keeps the exception it came with. -/
theorem leaves_of_not_faulted (h : Presents r a t) (hf : ¬ Faulted r a t) :
    (leaves r t).exception.valid = (r.st t).reg.bits.exception.valid := by
  have hwait : (r.st t).unit.state = .waitReady := by simpa [LSU.outValid] using h.2
  have hflag : (r.st t).unit.accessFault = false := by
    rw [← Bool.not_eq_true, (accessFault_iff h.1 (by simp [hwait])).1]
    exact hf
  simp [leaves, LSU.bits, LSU.excp, hflag]

/-- An exception from before is handed on as it is. -/
theorem leaves_of_exception (hv : (r.st t).reg.bits.exception.valid = true) :
    (leaves r t).exception = (r.st t).reg.bits.exception := by
  cases hb : (r.st t).reg.bits.exception with
  | mk v c tv =>
      rw [hb] at hv
      simp only at hv
      simp [leaves, LSU.bits, LSU.excp, hb, hv]

/-- **An access fault is precise**, if and only if it is not the fault of a store. -/
theorem precise_iff_not_store (h : Presents r a t) :
    Precise r a t ↔ ((LSU.reqOp (r.st t).reg.bits).stores = true → ¬ Faulted r a t) := by
  constructor
  · intro hp hstore hf
    have hcause := hp.faulted hf
    rw [leaves_of_faulted h hf, faultCause, if_pos hstore, if_pos hstore] at hcause
    have hne : ExceptionCode.StoreAMOPageFault ≠ ExceptionCode.StoreAMOAccessFault := by decide
    exact hne (congrArg ExceptionInfo.cause hcause)
  · intro hno
    refine ⟨fun hf => ?_, leaves_of_not_faulted h, leaves_of_exception⟩
    have hload : ¬ (LSU.reqOp (r.st t).reg.bits).stores = true := fun hs => hno hs hf
    rw [leaves_of_faulted h hf, faultCause, if_neg hload, if_neg hload]

/-- **Access faults of a run**: all instructions are reported precisely, if and only if no
store gets a response that is not OKAY. -/
theorem precise_iff (r : machine.Run) :
    (∀ a t, Presents r a t → Precise r a t) ↔
      ∀ a t, Presents r a t → (LSU.reqOp (r.st t).reg.bits).stores = true → ¬ Faulted r a t := by
  refine forall_congr' fun a => forall_congr' fun t => forall_congr' fun h => ?_
  exact precise_iff_not_store h

/-! ### A faulting store -/

/-- A slave that takes address and data in cycle 2 and responds SLVERR in cycle 3. -/
def refusing (t : ℕ) : In where
  awReady := decide (t = 2)
  wReady := decide (t = 2)
  b := ⟨decide (t = 3), { resp := AXIResp.SLVERR }⟩

/-- The store it refuses leaves with cause 15, a page fault. -/
theorem refusing_not_precise :
    ¬ ∀ (r : machine.Run) (a t : ℕ), Presents r a t → Precise r a t := by
  intro h
  have hpresents : Presents (storing refusing) 1 4 := by
    refine ⟨⟨by decide, by decide, fun u h1 h2 => ?_⟩, by decide⟩
    interval_cases u <;> decide
  have hcause := (h _ 1 4 hpresents).faulted ⟨3, by decide, by decide, by decide⟩
  exact absurd (congrArg ExceptionInfo.cause hcause) (by decide)

end LSUStage

end Bailuwan
