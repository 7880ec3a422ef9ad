/-
# The core refines the reference model

`Sim` relates the core and its memory to the run of the reference model when `n`
instructions have retired: write-back, the load and store unit and the execution stage
hold the next instructions in order, each with what the reference model has for it, the
register file is that of the reference model after `n` instructions, and the memory has
the store of the oldest instruction as soon as its data has been accepted.

Every cycle keeps `Sim` (`Sim.next`), so that it holds throughout every run on a memory
that answers (`sim`).
-/
import Bailuwan.ControlFlow
import Bailuwan.CoreBus
import Bailuwan.Reference
import Bailuwan.Simulator

namespace Bailuwan

open Synchronous AXI4 Nemu

/-- The 16 registers are not aliased by the addresses below 16. -/
theorem RegFile.idx_inj {a b : BitVec 5} (ha : a.toNat < 16) (hb : b.toNat < 16) :
    RegFile.idx a = RegFile.idx b ↔ a = b := by
  refine ⟨fun h => ?_, fun h => h ▸ rfl⟩
  have h' := congrArg BitVec.toNat h
  simp only [RegFile.idx, toNat_field] at h'
  apply BitVec.eq_of_toNat_eq
  omega

/-- A register is read as it was written. -/
theorem RegFile.read_next {f : RegFile} {rd rs : BitVec 5} {v : Word} {we : Bool}
    (hrd : we = true → rd.toNat < 16) (hrs : rs.toNat < 16) :
    (f.next rd v we).read rs = if we = true ∧ rd ≠ 0 ∧ rs = rd then v else f.read rs := by
  simp only [RegFile.read, RegFile.next, Bool.and_eq_true, decide_eq_true_eq]
  by_cases hw : we = true ∧ rd ≠ 0
  · rw [if_pos hw]
    by_cases heq : rs = rd
    · rw [if_pos ⟨hw.1, hw.2, heq⟩, heq, Function.update_self]
    · have hne : RegFile.idx rs ≠ RegFile.idx rd := fun h => heq ((idx_inj hrs (hrd hw.1)).mp h)
      rw [if_neg fun h => heq h.2.2, Function.update_of_ne hne]
  · rw [if_neg hw, if_neg fun h => hw ⟨h.1, h.2.1⟩]

/-- The register file follows the effect of an instruction. -/
theorem RegFile.next_agrees {f : RegFile} {s : CPU} {e : Effect} {rd : BitVec 5} {v : Word}
    {we : Bool} (hf : ∀ rs : BitVec 5, rs.toNat < 16 → f.read rs = s.gpr rs) (hzero : s.gpr 0 = 0)
    (hrd : e.rd = if we then some (rd, v) else none) (hlt : we = true → rd.toNat < 16)
    {rs : BitVec 5} (hrs : rs.toNat < 16) : (f.next rd v we).read rs = (s.apply e).gpr rs := by
  rw [read_next hlt hrs, hf rs hrs]
  by_cases h0 : rs = 0
  · rw [h0, CPU.apply_gpr_zero, hzero, if_neg fun h => h.2.1 h.2.2.symm]
  · cases we with
    | false => rw [CPU.apply_gpr_of_none h0 hrd, if_neg fun h => by cases h.1]
    | true =>
        rw [CPU.apply_gpr_of_some h0 hrd]
        by_cases heq : rs = rd
        · rw [if_pos heq, if_pos ⟨rfl, heq ▸ h0, heq⟩]
        · rw [if_neg heq, if_neg fun h => heq h.2.2]

namespace Core

variable {init : Bytes} {p : Program init} {c : Core} {io : In} {m : Memory} {n : ℕ}

/-! ## The simulation relation -/

/-- The number of the instruction that is next in the load and store unit, when `n`
have retired. -/
def lsuIndex (c : Core) (n : ℕ) : ℕ := n + c.wbuIn.valid.toNat

/-- The number of the instruction that is next in the execution stage. -/
def exuIndex (c : Core) (n : ℕ) : ℕ := c.lsuIndex n + c.lsuIn.valid.toNat

/-- The oldest instruction has accessed the memory. -/
def accessed (c : Core) : Bool :=
  c.wbuIn.valid || decide (c.lsu.state = .wWaitMem) || decide (c.lsu.state = .waitReady)

/-- **The simulation relation.** -/
structure Sim (p : Program init) (c : Core) (m : Memory) (n : ℕ) : Prop where
  pipeline : PipelineInv c
  bus : BusTrack c m
  fetching : p.code.Fetching c.ifu
  iduIn : c.iduIn.valid = true → p.code.Fetched c.iduIn.bits
  front : FrontLinks c (reference init (c.exuIndex n)).pc
  exuIn : c.exuIn.valid = true → Issues (reference init (c.exuIndex n)) c.exuIn.bits
  predicts : c.exuIn.valid = true → c.exuIn.bits.predictTaken = true → c.exuIn.bits.brOp ≠ .nop
  lsuIn : c.lsuIn.valid = true → Executes (reference init (c.lsuIndex n)) c.lsuIn.bits
  noFault : c.lsu.state ≠ .idle → c.lsu.accessFault = false
  loaded : c.lsu.state = .waitReady → LSU.entryState c.lsuIn.bits = .rAddr →
    c.lsu.readReg = alignedWord (reference init (c.lsuIndex n)).mem c.lsuIn.bits.lsuAddr
  wbuIn : c.wbuIn.valid = true → Retires (reference init n) c.wbuIn.bits
  regs : ∀ rs : BitVec 5, rs.toNat < 16 → c.regFile.read rs = (reference init n).gpr rs
  mem : m.bytes init = (reference init (n + c.accessed.toNat)).mem

namespace Sim

/-! ### What follows in one cycle -/

/-- In the simulation nothing is flushed from the write back stage. -/
theorem wbuFlush (h : Sim p c m n) : c.wbuFlush = false := by
  cases hv : c.wbuIn.valid with
  | false => simp [Core.wbuFlush, WBU.redirectValid, hv]
  | true =>
      have hw := h.wbuIn hv
      simp [Core.wbuFlush, WBU.redirectValid, hw.noExcp, hw.noReturn, hw.noFence]

/-- In the simulation no prediction is stale. -/
theorem not_stalePrediction (h : Sim p c m n) : ¬ StalePrediction c := by
  rintro ⟨hfire, hop, hpt, -⟩
  exact h.predicts (Bool.and_eq_true_iff.mp hfire).1 hpt hop

/-- While the load and store unit is busy it holds the next instruction of the reference. -/
theorem lsuIn_of_busy (h : Sim p c m n) (hs : c.lsu.state ≠ .idle) :
    Executes (reference init n) c.lsuIn.bits ∧ c.wbuIn.valid = false := by
  have hv : c.wbuIn.valid = false := by
    by_contra hv
    exact hs (h.pipeline.drained (by simpa using hv))
  have hl := h.lsuIn (h.pipeline.held hs)
  rw [lsuIndex, hv] at hl
  exact ⟨hl, hv⟩

/-- An instruction that accesses memory has an operation. -/
theorem reqOp_of_accesses (h : Sim p c m n) (ha : Accesses c) :
    LSU.reqOp c.lsuIn.bits ≠ .nop := by
  intro hop
  have hserves := h.pipeline.serves
  have hentry : LSU.entryState c.lsuIn.bits = .waitReady := by simp [LSU.entryState, hop]
  simp only [LSU.Serves, hentry] at hserves
  obtain ⟨h1, h2⟩ := ha
  cases hst : c.lsu.state <;> simp [hst] at hserves h1 h2

/-- Its address is routed to the memory. -/
theorem routed (h : Sim p c m n) : Routed c := by
  intro ha
  obtain ⟨hexec, -⟩ := h.lsuIn_of_busy ha.1
  obtain ⟨_, -, -, hr⟩ := hexec.access (p.supported n) (h.reqOp_of_accesses ha)
  exact hr

/-! ### The indices -/

/-- The write back stage gets what leaves the load and store unit. -/
theorem next_wbuIn_valid (h : Sim p c m n) :
    (c.next io).wbuIn.valid = decide (c.lsu.state = .waitReady) := by
  rw [Core.next_wbuIn_valid, h.wbuFlush]
  rfl

/-- The load and store unit gets what leaves the execution unit. -/
theorem next_lsuIn_valid (h : Sim p c m n) : (c.next io).lsuIn.valid =
    if c.lsuInReady then c.exuIn.valid else c.lsuIn.valid := by
  rw [Core.next_lsuIn_valid, h.wbuFlush]
  rfl

/-- The index of the load and store unit counts what leaves it. -/
theorem lsuIndex_next (h : Sim p c m n) : (c.next io).lsuIndex (c.lsuIndex n) =
    c.lsuIndex n + (decide (c.lsu.state = .waitReady)).toNat := by
  rw [lsuIndex, h.next_wbuIn_valid]

/-- The execution stage moves on when it hands over an instruction. -/
theorem exuIndex_next {i : In} (h : Sim p c m n) : (c.next i).exuIndex (c.lsuIndex n) =
    c.exuIndex n + c.exuFire.toNat := by
  have hheld := h.pipeline.held
  rw [exuIndex, h.lsuIndex_next, h.next_lsuIn_valid, exuIndex, exuFire]
  by_cases hw : c.lsu.state = .waitReady
  · have hr : c.lsuInReady = true := LSU.inReady_of_waitReady hw
    have hv := hheld (by simp [hw])
    simp [hw, hr, hv]
  · by_cases hi : c.lsu.state = .idle
    · have hr : c.lsuInReady = !c.lsuIn.valid := LSU.inReady_of_idle hi
      cases hv : c.lsuIn.valid <;> simp [hw, hr, hv]
    · have hr : c.lsuInReady = false := LSU.inReady_of_busy hi hw
      simp [hw, hr]

/-- The instruction handed over is the next one of the load and store unit. -/
theorem lsuIndex_of_exuFire (h : Sim p c m n) (hf : c.exuFire = true) :
    (c.next io).lsuIndex (c.lsuIndex n) = c.exuIndex n := by
  have hidx := h.exuIndex_next (i := io)
  obtain ⟨hv, hr⟩ := Bool.and_eq_true_iff.mp hf
  rw [exuIndex, h.next_lsuIn_valid, hr, if_pos rfl, hv, hf] at hidx
  simpa using hidx

/-- The index stays while the unit is not ready. -/
theorem lsuIndex_of_not_ready (h : Sim p c m n) (hr : c.lsuInReady = false) :
    (c.next io).lsuIndex (c.lsuIndex n) = c.lsuIndex n := by
  have hw : c.lsu.state ≠ .waitReady := by
    intro hw
    rw [lsuInReady, LSU.inReady_of_waitReady hw] at hr
    exact absurd hr (by decide)
  simp [h.lsuIndex_next, hw]

/-! ### Forwarding -/

/-- What a stage announces, when the index moves with its valid bit. -/
theorem announces_of_valid (p : Program init) {x : HazardInfo} {v : Bool} {k : ℕ}
    (hempty : v = false → x.valid = false)
    (hfull : v = true → ∀ e, decodeExec (reference init k) = some e →
      Announces x (reference init k).gpr ((reference init k).apply e).gpr) :
    Announces x (reference init k).gpr (reference init (k + v.toNat)).gpr := by
  cases hv : v with
  | false => exact Announces.of_empty (hempty hv)
  | true =>
      obtain ⟨e, he⟩ := p.effect k
      have hsucc : reference init (k + true.toNat) = (reference init k).apply e :=
        Program.reference_succ he
      rw [hsucc]
      exact hfull hv e he

theorem eq_of_valid {α : Type*} {x : Valid α} (h : x.valid = true) : x = ⟨true, x.bits⟩ := by
  rw [← h]

/-- **Forwarding**: the decoder gets the registers after all instructions ahead of it. -/
theorem forwarded (h : Sim p c m n) {rs : BitVec 5} (hlt : rs.toNat < 16)
    (hstall : IDU.needStall c.hazards rs true = false) :
    IDU.forwardReg c.hazards rs (c.regFile.read rs) =
      (reference init (c.exuIndex n + c.exuIn.valid.toNat)).gpr rs := by
  by_cases h0 : rs = 0
  · subst h0
    rw [forwardReg_zero, p.gpr_zero, ← p.gpr_zero n]
    exact h.regs 0 hlt
  · have hwait := not_waits_of_not_needStall hstall h0
    have hwbu : Announces (WBU.hazard c.wbuIn) (reference init n).gpr
        (reference init (c.lsuIndex n)).gpr :=
      announces_of_valid p (fun hv => by simp [WBU.hazard, hv]) fun hv e he => by
        rw [eq_of_valid hv]
        exact (h.wbuIn hv).announces he
    have hlsu : Announces (c.lsu.hazard c.lsuIn) (reference init (c.lsuIndex n)).gpr
        (reference init (c.exuIndex n)).gpr :=
      announces_of_valid p (fun hv => by simp [LSU.hazard, hv]) fun hv e he => by
        rw [eq_of_valid hv]
        exact (h.lsuIn hv).announces (p.supported _) he h.loaded
    have hexu : Announces (EXU.hazard c.exuIn.bits c.csrRsData c.exuIn.valid)
        (reference init (c.exuIndex n)).gpr
        (reference init (c.exuIndex n + c.exuIn.valid.toNat)).gpr :=
      announces_of_valid p (fun hv => by simp [EXU.hazard, hv]) fun hv e he => by
        rw [hv]
        exact (h.exuIn hv).announces (p.supported _) he _
    exact forwardReg_cons hexu h0 (hwait _ (by simp [hazards]))
      (forwardReg_cons hlsu h0 (hwait _ (by simp [hazards]))
        (forwardReg_cons hwbu h0 (hwait _ (by simp [hazards])) (h.regs rs hlt)))

/-! ### The front of the pipeline -/

/-- The stream starts at the next instruction of the reference model. -/
theorem front_next {i : In} (h : Sim p c m n) : FrontLinks (c.next i)
    (reference init ((c.next i).exuIndex (c.lsuIndex n))).pc := by
  have hlinks := h.front.next (i := i)
  rw [h.exuIndex_next]
  cases hf : c.exuFire with
  | true =>
      have hv := (Bool.and_eq_true_iff.mp hf).1
      have hdnpc := (h.exuIn hv).effect (p.supported _) c.csrRsData
      have hsucc : reference init (c.exuIndex n + true.toNat) = _ := Program.reference_succ hdnpc
      rw [hsucc]
      rw [frontNext_of_exuFire hf h.wbuFlush h.not_stalePrediction] at hlinks
      exact hlinks
  | false =>
      have hx : c.exuFlush = false := by
        by_contra hx
        rw [exuFire_of_exuFlush (by simpa using hx)] at hf
        exact absurd hf (by decide)
      rw [frontNext, hx, h.wbuFlush, hf] at hlinks
      exact hlinks

/-- What gets to the decoder is an instruction of the program. -/
theorem iduIn_next (h : Sim p c m n) (hv : (c.next io).iduIn.valid = true) :
    p.code.Fetched (c.next io).iduIn.bits := by
  rw [next_iduIn_valid] at hv
  split_ifs at hv with hflush hready
  · obtain ⟨o, ho⟩ := Option.isSome_iff_exists.mp hv
    have hdel : c.ifu.delivers (c.ifuIn io) = some o := by
      have hready' : (c.ifuIn io).outReady = true := hready
      rw [IFU.delivers, if_pos hready', ho]
    rw [next_iduIn_of_delivers hdel]
    exact h.fetching.delivers hdel
  · rw [next_iduIn_of_not_ready (by simpa using hready)]
    exact h.iduIn hv

/-- The instruction that enters the execution stage has the operands of the reference
model. -/
theorem issues_of_iduFire (h : Sim p c m n) (hf : c.iduFire = true)
    (hv : (c.next io).exuIn.valid = true) :
    Issues (reference init ((c.next io).exuIndex (c.lsuIndex n))) (c.next io).exuIn.bits := by
  have hpc := (h.front_next (i := io)).exuIn_pc hv
  have hidx := h.exuIndex_next (i := io)
  have hfire := hf
  simp only [iduFire, Bool.and_eq_true, Bool.not_eq_true'] at hfire
  obtain ⟨⟨hiv, hns⟩, hr⟩ := hfire
  rw [exuFire, hr, Bool.and_true] at hidx
  rw [next_exuIn_of_iduFire hf] at hpc ⊢
  rw [hidx] at hpc ⊢
  generalize hk : c.exuIndex n + c.exuIn.valid.toNat = k at hpc ⊢
  have hruns : p.code.Runs c.iduIn.bits.pc := ⟨k, hpc.symm⟩
  have hfetched := h.iduIn hiv
  have hinst : c.iduIn.bits.inst = (reference init k).inst := by
    rw [hfetched.inst hruns, p.inst_eq k, ← hpc]
    rfl
  have hstall := hns
  simp only [hazardStall, IDU.hazardStall, hiv, Bool.true_and, Bool.or_eq_false_iff, hinst]
    at hstall
  have hforward : ∀ {rs : BitVec 5}, rs.toNat < 16 → IDU.needStall c.hazards rs true = false →
      IDU.forwardReg c.hazards rs (c.regFile.read rs) = (reference init k).gpr rs := by
    rw [← hk]
    exact h.forwarded
  refine ⟨_, _, _, ⟨hpc, hinst, hfetched.noExcp hruns, fun hread => ?_, fun hread => ?_⟩,
    bits_forwarded _ _ _ _⟩
  · rw [hread] at hstall
    rw [hinst]
    exact hforward (rs1_lt (p.supported k) hread) hstall.1.1
  · rw [hread] at hstall
    rw [hinst]
    exact hforward (rs2_lt (p.supported k) hread) hstall.1.2

/-- What gets to the execution unit is issued for its state of the reference. -/
theorem exuIn_next (h : Sim p c m n) (hv : (c.next io).exuIn.valid = true) :
    Issues (reference init ((c.next io).exuIndex (c.lsuIndex n))) (c.next io).exuIn.bits ∧
      ((c.next io).exuIn.bits.predictTaken = true → (c.next io).exuIn.bits.brOp ≠ .nop) := by
  have hv' := hv
  rw [next_exuIn_valid, h.wbuFlush] at hv'
  cases hr : c.lsuInReady with
  | false =>
      rw [hr] at hv'
      have hnf : c.exuFire = false := by simp [exuFire, hr]
      rw [next_exuIn_of_not_ready hr, h.exuIndex_next, hnf]
      exact ⟨h.exuIn hv', h.predicts hv'⟩
  | true =>
      simp only [hr, Bool.false_eq_true, if_false, if_true, Bool.and_eq_true,
        Bool.not_eq_true'] at hv'
      have hf : c.iduFire = true := by simp [iduFire, hr, hv'.2.1, hv'.2.2]
      have hissue := h.issues_of_iduFire hf hv
      refine ⟨hissue, fun hpt => ?_⟩
      have hpc := hissue.pc
      rw [hissue.brOp, p.inst_eq, ← hpc]
      rw [next_exuIn_of_iduFire hf] at hpt hpc ⊢
      exact (h.iduIn hv'.2.1).predicts ⟨_, hpc.symm⟩ hpt

/-! ### The back of the pipeline -/

/-- What gets to the load and store unit is executed. -/
theorem lsuIn_next (h : Sim p c m n) (hv : (c.next io).lsuIn.valid = true) :
    Executes (reference init ((c.next io).lsuIndex (c.lsuIndex n))) (c.next io).lsuIn.bits := by
  rw [h.next_lsuIn_valid] at hv
  cases hr : c.lsuInReady with
  | false =>
      rw [hr] at hv
      rw [next_lsuIn_of_not_ready hr, h.lsuIndex_of_not_ready hr]
      exact h.lsuIn hv
  | true =>
      rw [hr, if_pos rfl] at hv
      have hf : c.exuFire = true := by simp [exuFire, hv, hr]
      rw [next_lsuIn_of_exuFire hf, h.lsuIndex_of_exuFire hf]
      exact ⟨_, _, h.exuIn hv, rfl⟩

/-- What gets to the write back stage retires. -/
theorem wbuIn_next (h : Sim p c m n) (hv : (c.next io).wbuIn.valid = true) :
    Retires (reference init (c.lsuIndex n)) (c.next io).wbuIn.bits := by
  rw [h.next_wbuIn_valid, decide_eq_true_eq] at hv
  have hne : c.lsu.state ≠ .idle := by simp [hv]
  rw [next_wbuIn_bits hv]
  exact (h.lsuIn (h.pipeline.held hne)).retires (p.supported _) (h.noFault hne) (h.loaded hv)

/-- No response is an error. -/
theorem respErr_eq_false (h : Sim p c m n) (hans : m.Answers init (c.master io) io) :
    c.lsu.respErr c.lsuIn (c.lsuMem io) = false := by
  rw [LSU.respErr, Bool.or_eq_false_iff]
  refine ⟨?_, ?_⟩
  · cases hr : rFire (c.lsu.memOut c.lsuIn) (c.lsuMem io) with
    | false => rfl
    | true => simp [(h.bus.lsu_read h.routed hans hr).2.1]
  · cases hb : bFire (c.lsu.memOut c.lsuIn) (c.lsuMem io) with
    | false => rfl
    | true => simp [h.bus.lsu_write h.routed hans hb]

/-- There is no access fault. -/
theorem noFault_next (h : Sim p c m n) (hans : m.Answers init (c.master io) io) :
    (c.next io).lsu.accessFault = false := by
  have hnext : (c.next io).lsu.accessFault = if c.lsu.state = .idle then false
      else if c.lsu.respErr c.lsuIn (c.lsuMem io) then true else c.lsu.accessFault := rfl
  rw [hnext, h.respErr_eq_false hans]
  by_cases hs : c.lsu.state = .idle
  · rw [if_pos hs]
  · rw [if_neg hs]
    exact h.noFault hs

/-- The unit finishes a load with the answer of the memory. -/
theorem loaded_next (h : Sim p c m n) (hans : m.Answers init (c.master io) io)
    (hs : (c.next io).lsu.state = .waitReady)
    (hload : LSU.entryState (c.next io).lsuIn.bits = .rAddr) :
    (c.next io).lsu.readReg =
      alignedWord (reference init ((c.next io).lsuIndex (c.lsuIndex n))).mem
        (c.next io).lsuIn.bits.lsuAddr := by
  have hserves := h.pipeline.serves
  rw [next_lsu_state, h.wbuFlush] at hs
  cases hst : c.lsu.state with
  | idle =>
      -- an instruction that is not an access
      simp only [LSU.nextState, hst, Bool.not_false, Bool.and_true] at hs
      split_ifs at hs with hv
      have hr : c.lsuInReady = false := by simp [lsuInReady, LSU.inReady_of_idle hst, hv]
      rw [next_lsuIn_of_not_ready hr, hs] at hload
      cases hload
  | rAddr | wAddr | wData =>
      simp only [LSU.nextState, hst] at hs
      split_ifs at hs
  | rWaitMem =>
      simp only [LSU.nextState, hst] at hs
      split_ifs at hs with hfire
      have hacc : Accesses c := by simp [Accesses, hst]
      have hdata := (h.bus.lsu_read h.routed hans hfire).2.2
      have hreg : (c.next io).lsu.readReg = (c.lsuMem io).r.bits.data := if_pos hfire
      have hnacc : c.accessed = false := by
        simp [accessed, (h.lsuIn_of_busy hacc.1).2, hst]
      rw [hreg, hdata, h.mem, hnacc, hacc.next_lsuIn, h.lsuIndex_next, lsuIndex,
        (h.lsuIn_of_busy hacc.1).2, hst]
      rfl
  | wWaitMem =>
      have hacc : Accesses c := by simp [Accesses, hst]
      simp only [LSU.Serves, hst] at hserves
      rw [hacc.next_lsuIn, hserves] at hload
      cases hload
  | waitReady => simp [LSU.nextState, hst, LSU.outFire, LSU.outValid] at hs

/-- **The register file** follows the retired instructions. -/
theorem regs_next (h : Sim p c m n) {rs : BitVec 5} (hrs : rs.toNat < 16) :
    (c.next io).regFile.read rs = (reference init (c.lsuIndex n)).gpr rs := by
  have hreg : (c.next io).regFile = c.regFile.next c.wbuIn.bits.rdAddr c.wbuIn.bits.lsOut
    (WBU.rdWe c.wbuIn) := rfl
  rw [hreg, lsuIndex]
  cases hv : c.wbuIn.valid with
  | false =>
      have hwe : WBU.rdWe c.wbuIn = false := by simp [WBU.rdWe, hv]
      rw [hwe, RegFile.read_next (fun h => by cases h) hrs, if_neg (fun h => by cases h.1)]
      exact h.regs rs hrs
  | true =>
      have hw := h.wbuIn hv
      obtain ⟨e, he, hrd⟩ := hw.effect
      have hwe : WBU.rdWe c.wbuIn = c.wbuIn.bits.rdWe := by simp [WBU.rdWe, hv, hw.noExcp]
      have hsucc : reference init (n + true.toNat) = _ := Program.reference_succ he
      rw [hwe, hsucc]
      refine RegFile.next_agrees h.regs (p.gpr_zero n) hrd (fun hb => ?_) hrs
      rw [hb, if_pos rfl] at hrd
      exact p.rd_lt he hrd

/-- An instruction that stores nothing leaves the memory of the reference model. -/
theorem mem_succ_of_no_store (p : Program init) {b : EXUOut} {k : ℕ}
    (h : Executes (reference init k) b) (hns : (LSU.reqOp b).stores = false) :
    (reference init (k + 1)).mem = (reference init k).mem := by
  obtain ⟨e, he⟩ := p.effect k
  have hst := h.store (p.supported k) he
  rw [hns, if_neg (by decide)] at hst
  rw [Program.reference_succ he, CPU.apply, hst]

/-- An instruction that stores begins with a write address. -/
theorem stores_of_entryState {b : EXUOut} :
    (LSU.reqOp b).stores = decide (LSU.entryState b = .wAddr) := by
  cases hop : LSU.reqOp b <;> simp [LSU.entryState, LSUOp.stores, hop]

/-- The store that the load and store unit carries out is the one of the reference model. -/
theorem store_of_entry (h : Sim p c m n) (hacc : Accesses c)
    (hentry : LSU.entryState c.lsuIn.bits = .wAddr) :
    ∃ e len, decodeExec (reference init n) = some e ∧
      e.store = some ⟨c.lsuIn.bits.lsuAddr, len, c.lsuIn.bits.lsuStoreData⟩ ∧
      c.lsuIn.bits.lsuAddr.toNat % 4 + len ≤ 4 ∧
      (c.masters 0).w.bits = storeBeat c.lsuIn.bits.lsuAddr len c.lsuIn.bits.lsuStoreData := by
  have hexec := (h.lsuIn_of_busy hacc.1).1
  have hs := p.supported n
  have hstores : (LSU.reqOp c.lsuIn.bits).stores = true := by simp [stores_of_entryState, hentry]
  obtain ⟨len, hlen, halign, -⟩ := hexec.access hs (h.reqOp_of_accesses hacc)
  obtain ⟨e, he⟩ := p.effect n
  have hstore := hexec.store hs he
  rw [hstores, if_pos rfl, hlen, Option.map_some] at hstore
  have hfit := LSUOp.fits hlen halign
  exact ⟨e, len, he, hstore, hfit, LSU.memOut_w hstores hlen hfit⟩

/-- The data of a store changes the memory as the reference model does. -/
theorem mem_of_wFire (h : Sim p c m n) (hw : wFire (c.masters 0) (c.lsuMem io) = true)
    (hmem : m.bytes init = (reference init n).mem) :
    (m.next (c.master io) io).bytes init = (reference init (n + 1)).mem := by
  have hst := lsu_state_of_wFire hw
  have hacc : Accesses c := by rcases hst with hst | hst <;> simp [Accesses, hst]
  have hentry : LSU.entryState c.lsuIn.bits = .wAddr := by
    have hserves := h.pipeline.serves
    rcases hst with hst | hst <;> simpa [LSU.Serves, hst] using hserves
  obtain ⟨e, len, he, hstore, hfit, hbeat⟩ := h.store_of_entry hacc hentry
  have hnext := h.bus.stores_next (i := io) h.routed
  rw [if_pos hw, hbeat] at hnext
  rw [Program.reference_succ he, CPU.apply, hstore]
  simp only
  rw [← hmem, ← storeBeat_writes _ _ hfit]
  funext a
  exact Memory.bytes_cons init _ hnext a

/-- An access has been made when its answer is waited for or has come. -/
theorem accessed_next {i : In} (h : Sim p c m n) : (c.next i).accessed =
    (decide (c.lsu.state = .waitReady) ||
      decide (c.lsu.nextState c.lsuIn (c.lsuMem i) false true = .wWaitMem) ||
      decide (c.lsu.nextState c.lsuIn (c.lsuMem i) false true = .waitReady)) := by
  rw [accessed, h.next_wbuIn_valid, next_lsu_state, h.wbuFlush]

/-- Without data accepted the memory is the same. -/
theorem bytes_of_not_wFire (h : Sim p c m n) (hw : wFire (c.masters 0) (c.lsuMem io) = false) :
    (m.next (c.master io) io).bytes init = m.bytes init := by
  have hstores := h.bus.stores_next (i := io) h.routed
  rw [hw, if_neg (by decide)] at hstores
  unfold Memory.bytes
  rw [hstores]

/-- An access keeps write-back empty. -/
theorem lsuIndex_of_busy (h : Sim p c m n) (hne : c.lsu.state ≠ .idle) :
    c.lsuIndex n = n ∧ c.wbuIn.valid = false := by
  have hv := (h.lsuIn_of_busy hne).2
  simp [lsuIndex, hv]

/-- A unit that is not writing sends no data. -/
theorem bytes_of_not_writing (h : Sim p c m n)
    (hst : c.lsu.state ≠ .wAddr ∧ c.lsu.state ≠ .wData) :
    (m.next (c.master io) io).bytes init = m.bytes init := by
  refine h.bytes_of_not_wFire ?_
  show wFire (c.lsu.memOut c.lsuIn) (c.lsuMem io) = false
  rw [LSU.wFire_memOut, decide_eq_false hst.1, decide_eq_false hst.2]
  rfl

/-- A unit that is writing has stored once its data is accepted. -/
theorem mem_next_of_writing (h : Sim p c m n) (hans : m.Answers init (c.master io) io)
    (hst : c.lsu.state = .wAddr ∨ c.lsu.state = .wData) :
    (m.next (c.master io) io).bytes init =
      (reference init (n + (c.next io).accessed.toNat)).mem := by
  have hacc' := h.accessed_next (i := io)
  have hv := (h.lsuIndex_of_busy (by rcases hst with hst | hst <;> simp [hst])).2
  have hmem : m.bytes init = (reference init n).mem := by
    rw [h.mem, accessed, hv]
    rcases hst with hst | hst <;> rw [hst] <;> rfl
  cases hw : wFire (c.masters 0) (c.lsuMem io) with
  | true =>
      have hgo : c.lsu.nextState c.lsuIn (c.lsuMem io) false true = .wWaitMem :=
        LSU.nextState_eq_wWaitMem.mpr (.inl ⟨hw, h.bus.addressed h.routed hans hw⟩)
      rw [h.mem_of_wFire hw hmem, hacc', hgo]
      simp
  | false =>
      have hw' : wFire (c.lsu.memOut c.lsuIn) (c.lsuMem io) = false := hw
      have hno : (c.next io).accessed = false := by
        rw [hacc']
        rcases hst with hst | hst <;> simp only [LSU.nextState, hst, hw'] <;>
          cases awFire (c.lsu.memOut c.lsuIn) (c.lsuMem io) <;> rfl
      rw [h.bytes_of_not_wFire hw, hmem, hno]
      rfl

/-- **The memory** has the store of the oldest instruction once its data is accepted. -/
theorem mem_next (h : Sim p c m n) (hans : m.Answers init (c.master io) io) :
    (m.next (c.master io) io).bytes init =
      (reference init (c.lsuIndex n + (c.next io).accessed.toNat)).mem := by
  have hacc' := h.accessed_next (i := io)
  have hentry := h.pipeline.serves
  cases hst : c.lsu.state with
  | idle =>
      rw [h.bytes_of_not_writing (by simp [hst]), h.mem, accessed, hst]
      simp only [LSU.nextState, hst, Bool.not_false, Bool.and_true] at hacc'
      cases hv : c.lsuIn.valid with
      | false => simp [hacc', hv, lsuIndex]
      | true =>
          rcases LSU.entryState_cases c.lsuIn.bits with he | he | he
          · -- an instruction that is not an access
            have hns := mem_succ_of_no_store p (h.lsuIn hv) (by simp [stores_of_entryState, he])
            simp only [hacc', hv, he, if_true]
            simpa [lsuIndex] using hns.symm
          · simp [hacc', hv, he, lsuIndex]
          · simp [hacc', hv, he, lsuIndex]
  | rAddr | wWaitMem =>
      obtain ⟨hidx, hv⟩ := h.lsuIndex_of_busy (by simp [hst])
      rw [h.bytes_of_not_writing (by simp [hst]), h.mem, accessed, hst, hv, hidx, hacc']
      simp only [LSU.nextState, hst]
      split_ifs <;> rfl
  | rWaitMem =>
      obtain ⟨hidx, hv⟩ := h.lsuIndex_of_busy (by simp [hst])
      simp only [LSU.Serves, hst] at hentry
      have hns := mem_succ_of_no_store p (h.lsuIn_of_busy (by simp [hst])).1
        (by simp [stores_of_entryState, hentry])
      rw [h.bytes_of_not_writing (by simp [hst]), h.mem, accessed, hst, hv, hidx, hacc']
      simp only [LSU.nextState, hst]
      split_ifs
      · exact hns.symm
      · rfl
  | wAddr =>
      rw [(h.lsuIndex_of_busy (by simp [hst])).1]
      exact h.mem_next_of_writing hans (.inl hst)
  | wData =>
      rw [(h.lsuIndex_of_busy (by simp [hst])).1]
      exact h.mem_next_of_writing hans (.inr hst)
  | waitReady =>
      obtain ⟨hidx, hv⟩ := h.lsuIndex_of_busy (by simp [hst])
      rw [h.bytes_of_not_writing (by simp [hst]), h.mem, accessed, hst, hv, hidx, hacc']
      simp [hst]

/-! ### The cache -/

/-- The memory has the words of the program. -/
theorem mem_word (h : Sim p c m n) {a : Word} (hr : p.code.Runs a) :
    alignedWord (m.bytes init) a = p.code.word a := by
  have halign := p.code.aligned hr
  obtain ⟨k, rfl⟩ := hr
  rw [alignedWord_of_aligned _ halign, h.mem]
  exact p.wordAt_mem _ k

/-- The fetch unit stays within the program. -/
theorem fetching_next (h : Sim p c m n) (hans : m.Answers init (c.master io) io) :
    p.code.Fetching (c.next io).ifu := by
  have hbeat : c.ifu.icache.rFire (c.ifu.icacheIn (c.ifuIn io)) = true →
      p.code.Block c.ifu.icache.fillTag c.ifu.icache.fillIndex → _ := fun hr hblock =>
    h.bus.fill_beat hblock.routed hans hr
  refine h.fetching.next h.bus.fillStart (fun hr hblock => ?_) (fun hr hblock => ?_) fun hen => ?_
  · obtain ⟨hlast, -, hdata⟩ := hbeat hr hblock
    refine ⟨hlast, fun hruns => ?_⟩
    rw [← h.mem_word hruns]
    exact hdata
  · exact (hbeat hr hblock).2.1
  · have hfire : EXU.validBr c.exuIn.bits c.exuFire = true := hen
    simp only [EXU.validBr, Bool.and_eq_true, decide_eq_true_eq] at hfire
    have hissue := h.exuIn (Bool.and_eq_true_iff.mp hfire.1).1
    have hpc : (c.ifuIn io).btbW.pc = (reference init (c.exuIndex n)).pc := hissue.pc
    rw [hpc]
    refine ⟨p.runs _, ?_⟩
    have hword : p.code.word (reference init (c.exuIndex n)).pc =
      (reference init (c.exuIndex n)).inst := (p.inst_eq _).symm
    rw [Code.Branches, hword, ← hissue.brOp]
    exact hfire.2

/-! ### The step -/

/-- **One cycle keeps the relation.** -/
theorem next (h : Sim p c m n) (hans : m.Answers init (c.master io) io) :
    Sim p (c.next io) (m.next (c.master io) io) (c.lsuIndex n) where
  pipeline := h.pipeline.next
  bus := h.bus.next h.routed hans
  fetching := h.fetching_next hans
  iduIn := h.iduIn_next
  front := h.front_next
  exuIn hv := (h.exuIn_next hv).1
  predicts hv := (h.exuIn_next hv).2
  lsuIn := h.lsuIn_next
  noFault _ := h.noFault_next hans
  loaded := h.loaded_next hans
  wbuIn := h.wbuIn_next
  regs _ := h.regs_next
  mem := h.mem_next hans

/-- After reset the simulation begins. -/
theorem of_reset (p : Program init) (h : c.IsReset) : Sim p c {} 0 where
  pipeline := PipelineInv.of_reset h
  bus := BusTrack.of_reset h
  fetching := Code.Fetching.of_reset h.ifu
  iduIn hv := by simp [h.iduIn] at hv
  front := by
    have hidx : c.exuIndex 0 = 0 := by simp [exuIndex, lsuIndex, h.wbuIn, h.lsuIn]
    rw [hidx]
    exact FrontLinks.of_reset h
  exuIn hv := by simp [h.exuIn] at hv
  predicts hv := by simp [h.exuIn] at hv
  lsuIn hv := by simp [h.lsuIn] at hv
  noFault hs := absurd h.lsu.state hs
  loaded hs := by simp [h.lsu.state] at hs
  wbuIn hv := by simp [h.wbuIn] at hv
  regs rs _ := h.regFile _
  mem := by
    have hacc : c.accessed = false := by simp [accessed, h.wbuIn, h.lsu.state]
    rw [hacc]
    rfl

end Sim

/-- The number of instructions retired in the cycles before `t`. -/
def retired (r : machine.Run) : ℕ → ℕ := r.watch 0 fun n c _ => c.lsuIndex n

/-- The memory behind the external port answers in every cycle. -/
def Answered (init : Bytes) (r : machine.Run) : Prop :=
  ∀ t, (memory r t).Answers init ((r.st t).master (r.inp t)) (r.inp t)

/-- A core on its memory is answered. -/
theorem onMemory_answered (init : Bytes) : Answered init (onMemory init) := by
  intro t
  rw [onMemory_inp]
  exact Memory.respond_answers ..

/-- The simulation holds in every run. -/
theorem sim (p : Program init) (r : machine.Run) (hans : Answered init r) (t : ℕ) :
    Sim p (r.st t) (memory r t) (retired r t) := by
  induction t with
  | zero => exact Sim.of_reset p r.start
  | succ t ih =>
      rw [st_succ]
      exact ih.next (hans t)

end Core

end Bailuwan
