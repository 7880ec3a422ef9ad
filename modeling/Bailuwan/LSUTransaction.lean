/-
# The transactions of the load and store unit

The unit together with the register in front of it is a machine of its own, whose
inputs are what the execution stage offers and whatever the slave of the memory port
does.  The tally of an instruction is the number of handshakes on each channel between
the cycle in which the unit takes it and the cycle in which it presents it.

* `oneTransaction_iff`: a load has one handshake on AR and on R and a store one on AW, W
  and B, if and only if the slave never takes the data before the address;
* `lsuStage`: every run of the core is a run of this machine, and a memory that waits
  for the address makes it one transaction for each access (`program_oneTransaction`).
-/
import Bailuwan.Refinement

namespace Bailuwan

open Synchronous AXI4

/-! ## The unit and its register -/

/-- The registers of `LSU` and the pipeline register in front of it. -/
structure LSUStage where
  unit : LSU
  reg : Valid EXUOut
  deriving DecidableEq, Repr

/-- The inputs of one cycle. -/
structure LSUStageIn where
  prev : Option EXUOut
  mem : In
  wbuFlush : Bool
  outReady : Bool
  deriving DecidableEq, Repr

namespace LSUStage

variable (s : LSUStage) (i : LSUStageIn)

/-- What reset fixes. -/
structure IsReset : Prop where
  unit : s.unit.IsReset
  reg : s.reg.valid = false

/-- The clock edge of the unit and of the register in front of it. -/
def next : LSUStage where
  unit := s.unit.next s.reg i.mem i.wbuFlush i.outReady
  reg := pipelineConnect s.reg i.prev (s.unit.inReady s.reg i.outReady) i.wbuFlush false

/-- The two as a synchronous machine. -/
def machine : Machine LSUStage LSUStageIn where
  init := IsReset
  next := next

/-- The unit's half of its port. -/
def memOut : Out := s.unit.memOut s.reg

/-- The slave takes the data of a store and does not take its address. -/
def dataFirst : Bool :=
  decide (s.unit.state = .wAddr) && wFire s.memOut i.mem && !awFire s.memOut i.mem

/-! ## Tallies -/

/-- The number of handshakes on each channel. -/
structure Tally where
  ar : ℕ := 0
  r : ℕ := 0
  aw : ℕ := 0
  w : ℕ := 0
  b : ℕ := 0
  deriving DecidableEq, Repr

section Runs

variable (r : machine.Run)

/-- The handshakes from `a` up to, but not including, `t`. -/
def tally (a t : ℕ) : Tally where
  ar := count (fun u => arFire (r.st u).memOut (r.inp u).mem) a t
  r := count (fun u => rFire (r.st u).memOut (r.inp u).mem) a t
  aw := count (fun u => awFire (r.st u).memOut (r.inp u).mem) a t
  w := count (fun u => wFire (r.st u).memOut (r.inp u).mem) a t
  b := count (fun u => bFire (r.st u).memOut (r.inp u).mem) a t

/-- How often the data was taken before the address. -/
def early (a t : ℕ) : ℕ := count (fun u => (r.st u).dataFirst (r.inp u)) a t

/-- The unit presents in `t` the instruction it took in `a`: in between it is not idle. -/
def Presents (a t : ℕ) : Prop :=
  LastAt (fun u => (r.st u).unit.state = .idle) a t ∧ (r.st t).unit.outValid = true

/-- **The statement about transactions**, for the instruction presented in `t`. -/
def OneTransaction (a t : ℕ) : Prop :=
  ((LSU.reqOp (r.st t).reg.bits).loads = true → tally r a t = { ar := 1, r := 1 }) ∧
    ((LSU.reqOp (r.st t).reg.bits).stores = true → tally r a t = { aw := 1, w := 1, b := 1 })

end Runs

/-! ## One cycle -/

/-- What a unit has done for its instruction, by its state; `e` is how often the data was
taken before the address. -/
def done (e : ℕ) : Tally :=
  match s.unit.state with
  | .idle | .rAddr => {}
  | .rWaitMem => { ar := 1 }
  | .wAddr => { w := e }
  | .wData => { aw := 1, w := e }
  | .wWaitMem => { aw := 1, w := e + 1 }
  | .waitReady =>
      match LSU.entryState s.reg.bits with
      | .rAddr => { ar := 1, r := 1 }
      | .wAddr => { aw := 1, w := e + 1, b := 1 }
      | _ => {}

/-- A tally after one more cycle. -/
def Tally.add (k : Tally) : Tally where
  ar := k.ar + (arFire s.memOut i.mem).toNat
  r := k.r + (rFire s.memOut i.mem).toNat
  aw := k.aw + (awFire s.memOut i.mem).toNat
  w := k.w + (wFire s.memOut i.mem).toNat
  b := k.b + (bFire s.memOut i.mem).toNat

variable {s i}

/-- The instruction stays in the register until the unit is ready. -/
theorem reg_next_of_not_ready (h : s.unit.inReady s.reg i.outReady = false) :
    (s.next i).reg.bits = s.reg.bits := by
  simp only [next, h]
  exact pipelineConnect_of_not_ready

/-- The unit takes an instruction without a handshake. -/
theorem done_of_idle (hidle : s.unit.state = .idle) (hnext : (s.next i).unit.state ≠ .idle) :
    Tally.add s i {} = (s.next i).done 0 ∧ s.dataFirst i = false ∧
      (s.next i).unit.Serves (s.next i).reg.bits := by
  have hstate : (s.next i).unit.state = LSU.entryState s.reg.bits ∧ s.reg.valid = true := by
    have h : (s.next i).unit.state = if s.reg.valid && !i.wbuFlush then LSU.entryState s.reg.bits
      else .idle := by simp [next, LSU.next, LSU.nextState, hidle]
    rw [h] at hnext ⊢
    split_ifs at hnext ⊢ with hgo
    · exact ⟨rfl, (Bool.and_eq_true_iff.mp hgo).1⟩
    · exact absurd rfl hnext
  have hbits : (s.next i).reg.bits = s.reg.bits :=
    reg_next_of_not_ready (by simp [LSU.inReady, hidle, hstate.2])
  refine ⟨?_, by simp [dataFirst, hidle], ?_⟩
  · simp only [Tally.add, memOut, LSU.memOut, hidle, done, hstate.1, hbits]
    rcases LSU.entryState_cases s.reg.bits with he | he | he <;>
      simp [he, arFire, rFire, awFire, wFire, bFire]
  · simp only [LSU.Serves, hstate.1, hbits]
    rcases LSU.entryState_cases s.reg.bits with he | he | he <;> simp [he]

/-- A busy unit keeps its instruction. -/
theorem reg_next_of_busy (hbusy : s.unit.state ≠ .idle) (hnext : (s.next i).unit.state ≠ .idle) :
    (s.next i).reg.bits = s.reg.bits := by
  refine reg_next_of_not_ready ?_
  simp only [next, LSU.next, LSU.nextState, LSU.outFire, LSU.outValid] at hnext
  cases hst : s.unit.state <;> simp [hst, LSU.inReady] at hbusy hnext ⊢
  exact hnext

/-- **One cycle of a transaction.** -/
theorem done_next (hserves : s.unit.Serves s.reg.bits) (hbusy : s.unit.state ≠ .idle)
    (hnext : (s.next i).unit.state ≠ .idle) (e : ℕ) :
    Tally.add s i (s.done e) = (s.next i).done (e + (s.dataFirst i).toNat) ∧
      (s.next i).unit.Serves (s.next i).reg.bits := by
  have hbits := reg_next_of_busy hbusy hnext
  have hstate : (s.next i).unit.state = s.unit.nextState s.reg i.mem i.wbuFlush i.outReady := rfl
  rw [hstate] at hnext
  simp only [done, Tally.add, hbits, hstate, LSU.Serves, dataFirst, memOut] at hserves ⊢
  cases hst : s.unit.state with
  | idle => exact absurd hst hbusy
  | rAddr =>
      simp only [hst] at hserves
      cases hf : i.mem.arReady <;>
        simp [hst, LSU.nextState, LSU.memOut, arFire, rFire, awFire, wFire, bFire, hf, hserves]
  | rWaitMem =>
      simp only [hst] at hserves
      cases hf : i.mem.r.valid <;>
        simp [hst, LSU.nextState, LSU.memOut, arFire, rFire, awFire, wFire, bFire, hf, hserves]
  | wAddr =>
      simp only [hst] at hserves
      cases hf : i.mem.awReady <;> cases hg : i.mem.wReady <;>
        simp [hst, LSU.nextState, LSU.memOut, arFire, rFire, awFire, wFire, bFire, hf, hg, hserves]
  | wData =>
      simp only [hst] at hserves
      cases hg : i.mem.wReady <;>
        simp [hst, LSU.nextState, LSU.memOut, arFire, rFire, awFire, wFire, bFire, hg, hserves]
  | wWaitMem =>
      simp only [hst] at hserves
      cases hf : i.mem.b.valid <;>
        simp [hst, LSU.nextState, LSU.memOut, arFire, rFire, awFire, wFire, bFire, hf, hserves]
  | waitReady =>
      -- it stays because nothing takes its result
      have hout : i.outReady = false := by
        simpa [LSU.nextState, hst, LSU.outFire, LSU.outValid] using hnext
      simp [hst, LSU.nextState, LSU.memOut, arFire, rFire, awFire, wFire, bFire, LSU.outFire,
        LSU.outValid, hout]

/-- Data is taken early from a store only. -/
theorem entryState_of_dataFirst (hserves : s.unit.Serves s.reg.bits)
    (h : s.dataFirst i = true) : LSU.entryState s.reg.bits = .wAddr := by
  simp only [dataFirst, Bool.and_eq_true, decide_eq_true_eq] at h
  simpa [LSU.Serves, h.1.1] using hserves

/-! ## Runs -/

section Runs

variable (r : machine.Run) {a t : ℕ}

theorem st_succ (t : ℕ) : r.st (t + 1) = (r.st t).next (r.inp t) := r.step t

/-- Every cycle is added to the tally. -/
theorem tally_succ (h : a ≤ t) :
    tally r a (t + 1) = Tally.add (r.st t) (r.inp t) (tally r a t) := by
  simp only [tally, Tally.add, count_succ _ h]

/-- **The tally of an instruction** is that of the state the unit is in. -/
theorem tally_eq (h : LastAt (fun u => (r.st u).unit.state = .idle) a t)
    (hbusy : (r.st t).unit.state ≠ .idle) :
    tally r a t = (r.st t).done (early r a t) ∧ (r.st t).unit.Serves (r.st t).reg.bits ∧
      (LSU.entryState (r.st t).reg.bits ≠ .wAddr → early r a t = 0) := by
  refine LastAt.since h hbusy (fun hnext => ?_) fun u hau hlast hidle hnext ih => ?_
  · rw [tally_succ r le_rfl, early, count_succ _ le_rfl, ← early]
    rw [st_succ] at hnext ⊢
    obtain ⟨h1, h2, h3⟩ := done_of_idle h.2.1 hnext
    refine ⟨?_, h3, ?_⟩
    · simpa [tally, early, h2] using h1
    · simp [early, h2]
  · rw [tally_succ r hlast.1, early, count_succ _ hlast.1, ← early]
    rw [st_succ] at hnext ⊢
    obtain ⟨h1, h2, h3⟩ := ih
    obtain ⟨h4, h5⟩ := done_next h2 hidle hnext (early r a u)
    refine ⟨by rw [h1]; exact h4, h5, fun hne => ?_⟩
    rw [reg_next_of_busy hidle hnext] at hne
    have hfirst : (r.st u).dataFirst (r.inp u) = false := by
      by_contra hfirst
      exact hne (entryState_of_dataFirst h2 (by simpa using hfirst))
    rw [h3 hne, hfirst]
    rfl

/-- Nothing was early if no cycle was. -/
theorem early_eq_zero_iff (h : LastAt (fun u => (r.st u).unit.state = .idle) a t) :
    early r a t = 0 ↔ ∀ u, a < u → u < t → (r.st u).dataFirst (r.inp u) = false := by
  rw [early, count_eq_zero_iff]
  refine ⟨fun hall u h1 h2 => hall u h1.le h2, fun hall u h1 h2 => ?_⟩
  rcases h1.lt_or_eq with h1 | rfl
  · exact hall u h1 h2
  · simp [dataFirst, h.2.1]

/-- A transaction is doubled by the data that was early, and by nothing else. -/
theorem oneTransaction_iff_early (h : Presents r a t) :
    OneTransaction r a t ↔ early r a t = 0 := by
  obtain ⟨hlast, hout⟩ := h
  have hwait : (r.st t).unit.state = .waitReady := by simpa [LSU.outValid] using hout
  obtain ⟨htally, -, hearly⟩ := tally_eq r hlast (by simp [hwait])
  rw [OneTransaction, htally, done, hwait]
  unfold LSU.entryState at hearly ⊢
  cases hop : LSU.reqOp (r.st t).reg.bits <;> simp [hop, LSUOp.loads, LSUOp.stores] at hearly ⊢ <;>
    exact hearly

/-- **One transaction for each instruction**, if and only if its data is never taken
before its address. -/
theorem oneTransaction_iff (h : Presents r a t) :
    OneTransaction r a t ↔ ∀ u, a < u → u < t → (r.st u).dataFirst (r.inp u) = false := by
  rw [oneTransaction_iff_early r h, early_eq_zero_iff r h.1]

end Runs

/-! ### A store -/

/-- The store of a word to `0x80000000`. -/
def storeWord : EXUOut where
  lsuOp := .sw
  lsuAddr := 0x80000000
  lsuStoreData := 1
  exOut := 0
  rdAddr := 0
  rdWe := false
  csrRdAddr := 0
  csrRdWe := false
  csrRdData := 0
  pc := 0x30000000
  inst := 0x0020a023
  exception := ⟨false, 0, 0⟩
  isTrapReturn := false
  isFenceI := false

/-- The run in which a slave gets one store: the unit takes it in cycle 1. -/
def storing (slave : ℕ → In) : machine.Run :=
  machine.run ⟨⟨.idle, 0, false⟩, ⟨false, storeWord⟩⟩ ⟨⟨rfl, rfl⟩, rfl⟩
    fun t => ⟨if t = 0 then some storeWord else none, slave t, false, true⟩

/-- A slave that takes address and data in cycle 2 and answers in cycle 3. -/
theorem together_oneTransaction :
    OneTransaction (storing fun t => { awReady := decide (t = 2), wReady := decide (t = 2)
                                       b := ⟨decide (t = 3), {}⟩ }) 1 4 := by
  refine (oneTransaction_iff _ ⟨⟨by decide, by decide, fun u h1 h2 => ?_⟩, by decide⟩).mpr
    fun u h1 h2 => ?_
  · interval_cases u <;> decide
  · interval_cases u <;> decide

/-- A slave that takes the data in cycle 2, the address in cycle 3 and answers in cycle 4. -/
def dataFirstSlave (t : ℕ) : In where
  awReady := decide (t = 3)
  wReady := decide (t = 2) || decide (t = 3)
  b := ⟨decide (t = 4), {}⟩

/-- It gets the data twice. -/
theorem dataFirstSlave_not_oneTransaction :
    ¬ ∀ (r : machine.Run) (a t : ℕ), Presents r a t → OneTransaction r a t := by
  intro h
  have hpresents : Presents (storing dataFirstSlave) 1 5 := by
    refine ⟨⟨by decide, by decide, fun u h1 h2 => ?_⟩, by decide⟩
    interval_cases u <;> decide
  have htwice : (tally (storing dataFirstSlave) 1 5).w = 2 := by decide
  rw [(h _ 1 5 hpresents).2 (by decide)] at htwice
  exact absurd htwice (by decide)

end LSUStage

/-! ## The unit in the core -/

namespace Core

/-- The core drives the unit and its register. -/
def lsuStage (r : machine.Run) : LSUStage.machine.Run where
  st t := ⟨(r.st t).lsu, (r.st t).lsuIn⟩
  inp t := ⟨(r.st t).exuOut, (r.st t).lsuMem (r.inp t), (r.st t).wbuFlush, true⟩
  start := ⟨r.start.lsu, r.start.lsuIn⟩
  step t := by
    rw [r.step t]
    rfl

/-- A memory takes no data before its address, so that the instructions of a program
have one transaction each. -/
theorem program_oneTransaction {init : Bytes} (p : Program init) (r : machine.Run)
    (hans : Answered init r) {a t : ℕ} (h : LSUStage.Presents (lsuStage r) a t) :
    LSUStage.OneTransaction (lsuStage r) a t := by
  rw [LSUStage.oneTransaction_iff_early (lsuStage r) h, LSUStage.early_eq_zero_iff (lsuStage r) h.1]
  intro u _ _
  have hsim := sim p r hans u
  by_contra hfirst
  simp only [LSUStage.dataFirst, Bool.not_eq_false, Bool.and_eq_true, decide_eq_true_eq,
    Bool.not_eq_true'] at hfirst
  have ha := hsim.bus.address_first hsim.routed (hans u) hfirst.1.1 hfirst.1.2
  exact absurd (hfirst.2.symm.trans ha) (by decide)

end Core

end Bailuwan
