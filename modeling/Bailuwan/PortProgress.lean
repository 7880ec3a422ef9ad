/-
# The transactions of the core end

The slave behind the external port answers reads in bursts, takes the data of a write only with or
after its address and responds after both, with any contents (`Memory.Complies`), and it does not
refuse forever what it is offered (`Responds`).  The protocol also lets a slave take the data before
the address: such a slave is left out, since the load and store unit does not wait for its response
then (`LSUTransaction`).  Each of the three slaves takes what is connected to it and ends what has
begun, so both paths make progress (`reads`, `writes`), and every access of the load and store unit
ends (`access_ends`).
-/
import Bailuwan.BusProgress
import Bailuwan.CompleteFill

namespace Bailuwan

open Synchronous AXI4 BusPath Interconnect

/-! ## Phases of a write -/

/-- The phase of a write after a cycle in which the address, the data and the response are
transferred or not. -/
def ErrorWriteState.step (p : ErrorWriteState) (aw w b : Bool) : ErrorWriteState :=
  match p with
  | .idle => if aw then (if w then .resp else .waitData) else .idle
  | .waitData => if w then .resp else .waitData
  | .resp => if b then .idle else .resp

/-- Without a handshake a phase stays. -/
@[simp] theorem ErrorWriteState.step_quiet (p : ErrorWriteState) :
    p.step false false false = p := by
  cases p <;> rfl

/-- The data of every write is one beat, so the error slave follows the phases. -/
theorem AXI4ErrorSlave.wState_next (e : AXI4ErrorSlave) {o : Out}
    (hw : wLastFire o e.ioIn = wFire o e.ioIn) :
    (e.next o).wState = e.wState.step (awFire o e.ioIn) (wFire o e.ioIn) (bFire o e.ioIn) := by
  cases hst : e.wState with
  | idle =>
      have hno : wFire o e.ioIn = false := by simp [wFire, ioIn, hst]
      simp [next, ErrorWriteState.step, hst, hno]
  | waitData => simp [next, ErrorWriteState.step, hst, hw]
  | resp => simp [next, ErrorWriteState.step, hst]

namespace Memory

/-- The phase of the write the slave is taking. -/
def phase (m : Memory) : ErrorWriteState :=
  if m.written then .resp else if m.writing.isSome then .waitData else .idle

/-- What a slave does in one cycle, whatever it answers: it offers the beats of the bursts it has
accepted, takes the data of a write with its address or after it, and responds to a write after its
last beat.  A slave that takes the data first, which the protocol allows, is left out. -/
structure Complies (m : Memory) (o : Out) (i : In) : Prop where
  bursts : ReadsInBursts m.reading i
  dataAfterAddress : wFire o i = true → m.writing.isSome = true ∨ awFire o i = true
  respAfterData : i.b.valid = true → m.writing.isSome = true ∧ m.written = true

/-- A memory that answers from its contents complies. -/
theorem Answers.complies {m : Memory} {init : Bytes} {o : Out} {i : In} (h : m.Answers init o i) :
    m.Complies o i := ⟨h.bursts, h.dataAfterAddress, h.respAfterData⟩

variable {m : Memory} {o : Out} {i : In}

/-- A slave that is offered one write at a time follows the phases. -/
theorem Complies.phase_next (h : m.Complies o i) (hlast : wLastFire o i = wFire o i)
    (haw : awFire o i = true → m.phase = .idle) :
    (m.next o i).phase = m.phase.step (awFire o i) (wFire o i) (bFire o i) := by
  have hb : bFire o i = true → m.writing.isSome = true ∧ m.written = true :=
    fun hb => h.respAfterData (Bool.and_eq_true_iff.mp hb).1
  have hw := h.dataAfterAddress
  simp only [phase, next, hlast] at haw ⊢
  cases hwritten : m.written with
  | true =>
      have hna : awFire o i = false := by
        by_contra hna
        simp [hwritten] at haw
        exact hna haw
      cases bFire o i <;> simp [ErrorWriteState.step]
  | false =>
      have hnb : bFire o i = false := by
        by_contra hnb
        simpa [hwritten] using (hb (by simpa using hnb)).2
      cases hwriting : m.writing.isSome with
      | true =>
          have hna : awFire o i = false := by
            by_contra hna
            simp [hwritten, hwriting] at haw
            exact hna haw
          cases wFire o i <;> simp [ErrorWriteState.step, hna, hnb, hwriting]
      | false =>
          cases ha : awFire o i with
          | true => cases wFire o i <;> simp [ErrorWriteState.step, hnb]
          | false =>
              have hnw : wFire o i = false := by
                by_contra hnw
                simpa [hwriting, ha] using hw (by simpa using hnw)
              simp [ErrorWriteState.step, hnb, hnw, hwriting]

end Memory

namespace Core

variable {c : Core} {io : In} {m : Memory}

/-! ## The writes -/

/-- The phase of the write of each master; the cache writes nothing. -/
def writePhase (c : Core) : Fin 2 → ErrorWriteState :=
  ![if c.lsu.state = .wData then .waitData else if c.lsu.state = .wWaitMem then .resp else .idle,
    .idle]

/-- A master is between two writes while it has none outstanding. -/
theorem writePhase_eq_idle_iff : ∀ k : Fin 2, c.writePhase k = .idle ↔ c.writing k = [] := by
  refine Fin.forall_fin_two.mpr ⟨?_, by simp [writePhase, writing]⟩
  cases hst : c.lsu.state <;> simp [writePhase, writing, hst]

/-- The load and store unit follows the phases. -/
theorem writePhase_next_lsu : (c.next io).writePhase 0 = (c.writePhase 0).step
    (awFire (c.masters 0) (c.lsuMem io)) (wFire (c.masters 0) (c.lsuMem io))
    (bFire (c.masters 0) (c.lsuMem io)) := by
  have haw : awFire (c.masters 0) (c.lsuMem io) = awFire (c.lsu.memOut c.lsuIn) (c.lsuMem io) := rfl
  have hw : wFire (c.masters 0) (c.lsuMem io) = wFire (c.lsu.memOut c.lsuIn) (c.lsuMem io) := rfl
  have hb : bFire (c.masters 0) (c.lsuMem io) = bFire (c.lsu.memOut c.lsuIn) (c.lsuMem io) := rfl
  simp only [writePhase, Matrix.cons_val_zero, next_lsu_state, haw, hw, hb]
  cases hst : c.lsu.state with
  | wAddr =>
      simp only [LSU.nextState, hst]
      cases awFire (c.lsu.memOut c.lsuIn) (c.lsuMem io) <;>
        cases wFire (c.lsu.memOut c.lsuIn) (c.lsuMem io) <;> simp [ErrorWriteState.step]
  | wData =>
      simp only [LSU.nextState, hst]
      cases wFire (c.lsu.memOut c.lsuIn) (c.lsuMem io) <;> simp [ErrorWriteState.step]
  | wWaitMem =>
      simp only [LSU.nextState, hst]
      cases bFire (c.lsu.memOut c.lsuIn) (c.lsuMem io) <;> simp [ErrorWriteState.step]
  | idle | rAddr | rWaitMem | waitReady =>
      -- no write begins in these states
      have hno : ¬ (c.lsu.nextState c.lsuIn (c.lsuMem io) c.wbuFlush true = .wData ∨
          c.lsu.nextState c.lsuIn (c.lsuMem io) c.wbuFlush true = .wWaitMem) := by
        rw [LSU.nextState_writes]
        simp [LSU.awFire_memOut, hst]
      rw [not_or] at hno
      simp [hno.1, hno.2, LSU.awFire_memOut, hst, ErrorWriteState.step]

/-- Every write the masters send is one beat. -/
theorem masters_last : ∀ k : Fin 2, (c.masters k).w.bits.last = true :=
  Fin.forall_fin_two.mpr ⟨rfl, rfl⟩

/-- Every beat of data is the last one. -/
theorem slave_wLastFire (j : Fin 3) :
    wLastFire (c.bus.slaveOut (c.busIn io) j) (c.bus.slaveIn (c.busIn io) j) =
      wFire (c.bus.slaveOut (c.busIn io) j) (c.bus.slaveIn (c.busIn io) j) := by
  have hown : (c.bus.writeOwner (c.busIn io)).w.bits.last = true :=
    masters_last c.bus.writePath.owner
  rw [writeSignal_wLastFire.slaveOut, writeSignal_wFire.slaveOut, wLastFire, hown, Bool.and_true]

/-- The phase of a write after the handshakes of the write path. -/
def phaseNext (c : Core) (io : In) (p : ErrorWriteState) : ErrorWriteState :=
  p.step (awFire (c.bus.writeOwner (c.busIn io)) (c.bus.writePort (c.busIn io)))
    (wFire (c.bus.writeOwner (c.busIn io)) (c.bus.writePort (c.busIn io)))
    (bFire (c.bus.writeOwner (c.busIn io)) (c.bus.writePort (c.busIn io)))

/-- The masters follow the handshakes of the path. -/
theorem writePhase_next : ∀ k : Fin 2, (c.next io).writePhase k =
    if c.bus.writePath.Connected k then c.phaseNext io (c.writePhase k) else c.writePhase k := by
  have hsig : ∀ {f : Out → In → Bool}, WriteSignal f → f (c.masters 0) (c.lsuMem io) =
      (decide (c.bus.writePath.Connected 0) &&
        f (c.bus.writeOwner (c.busIn io)) (c.bus.writePort (c.busIn io))) :=
    fun hf => hf.masterIn (s := c.bus) (i := c.busIn io) 0
  refine Fin.forall_fin_two.mpr ⟨?_, ?_⟩
  · rw [writePhase_next_lsu, hsig writeSignal_awFire, hsig writeSignal_wFire,
      hsig writeSignal_bFire]
    split_ifs with hk
    · simp only [decide_eq_true hk, Bool.true_and, phaseNext]
    · simp only [decide_eq_false hk, Bool.false_and, ErrorWriteState.step_quiet]
  · have hidle : ∀ c : Core, c.writePhase 1 = .idle := fun _ => rfl
    rw [hidle, hidle]
    split_ifs with hk
    · have hown : c.bus.writeOwner (c.busIn io) = c.masters 1 := congrArg c.masters hk.2.symm
      rw [phaseNext, hown]
      rfl
    · rfl

/-- So does a slave that follows the phases. -/
theorem slavePhase_next {j : Fin 3} {p p' : ErrorWriteState}
    (h : p' = p.step (awFire (c.bus.slaveOut (c.busIn io) j) (c.bus.slaveIn (c.busIn io) j))
      (wFire (c.bus.slaveOut (c.busIn io) j) (c.bus.slaveIn (c.busIn io) j))
      (bFire (c.bus.slaveOut (c.busIn io) j) (c.bus.slaveIn (c.busIn io) j))) :
    p' = if c.bus.writePath.Reaches j then c.phaseNext io p else p := by
  rw [h, writeSignal_awFire.slaveOut, writeSignal_wFire.slaveOut, writeSignal_bFire.slaveOut]
  split_ifs with hj
  · simp only [decide_eq_true hj, Bool.true_and, phaseNext]
  · simp only [decide_eq_false hj, Bool.false_and, ErrorWriteState.step_quiet]

/-! ## The invariant -/

/-- Beside the reads: what is connected to the error slave has begun if and only if the slave is
busy, and the slaves are in the phase of the write that is connected to them. -/
structure PortTrack (c : Core) (m : Memory) : Prop where
  reads : SlaveTrack c m.reading
  error : Mirrors c.bus.readPath false (fun k => decide (c.reading k ≠ [])) 2
    (decide (c.bus.xbar.errSlave.rState = .busy))
  write : BusPath.Inv (candidate slavesMap) c.bus.writePath c.writing
    fun k => writeReq (c.masters k)
  portPhase : Mirrors c.bus.writePath .idle c.writePhase 0 m.phase
  errorPhase : Mirrors c.bus.writePath .idle c.writePhase 2 c.bus.xbar.errSlave.wState

/-- After reset nothing is outstanding. -/
theorem PortTrack.of_reset (h : c.IsReset) : PortTrack c {} := by
  have hbus := BusTrack.of_reset h
  have hr : c.bus.readPath.arb = .idle := by simp [readPath, h.bus.arbiter, AXI4Arbiter.reset]
  have hw : c.bus.writePath.arb = .idle := by simp [writePath, h.bus.arbiter, AXI4Arbiter.reset]
  have hnr : ∀ j, ¬ c.bus.readPath.Reaches j := fun j hj =>
    absurd (hr.symm.trans hj.1.1) (by decide)
  have hnw : ∀ j, ¬ c.bus.writePath.Reaches j := fun j hj =>
    absurd (hw.symm.trans hj.1.1) (by decide)
  refine ⟨SlaveTrack.of_reset h, ⟨fun hj => absurd hj (hnr 2), fun _ => ?_⟩, hbus.write,
    ⟨fun hj => absurd hj (hnw 0), fun _ => rfl⟩, ⟨fun hj => absurd hj (hnw 2), fun _ => ?_⟩⟩
  · rw [h.bus.xbar.errSlave.rState]
    rfl
  · exact h.bus.xbar.errSlave.wState

/-- What is connected has begun after a cycle in which it begins, unless it ends. -/
theorem PortTrack.reading_next (h : PortTrack c m) (hb : ReadsInBursts m.reading io) (k : Fin 2) :
    decide ((c.next io).reading k ≠ []) = if c.bus.readPath.Connected k then
      !c.bus.readFin (c.busIn io) &&
        (decide (c.reading k ≠ []) || c.bus.readStart (c.busIn io))
      else decide (c.reading k ≠ []) := by
  have hc := readCycle (h.reads.lsu_last hb)
  rw [hc.acc_next]
  split_ifs with hk
  · rw [hk.2]
    cases hf : c.bus.readFin (c.busIn io) with
    | true =>
        have hnil := h.reads.reads.read.pendingNext_fin hc hf
        rw [hf] at hnil
        rw [hnil]
        rfl
    | false =>
        obtain ⟨a, ha, -⟩ := h.reads.reads.read.waits hk.1.1
        cases hs : c.bus.readStart (c.busIn io) with
        | true =>
            rw [(hc.start_open hs).2, current_nil] at ha
            rw [ha]
            simp [pendingNext]
        | false => simp [pendingNext]
  · rfl

/-- The error slave is busy with what it has accepted. -/
theorem errSlave_rState_next : decide ((c.next io).bus.xbar.errSlave.rState = .busy) =
    if c.bus.readPath.Reaches 2 then
      !c.bus.readFin (c.busIn io) &&
        (decide (c.bus.xbar.errSlave.rState = .busy) || c.bus.readStart (c.busIn io))
    else decide (c.bus.xbar.errSlave.rState = .busy) := by
  obtain ⟨e, he⟩ : ∃ e, e = c.bus.xbar.errSlave := ⟨_, rfl⟩
  obtain ⟨o, ho⟩ : ∃ o, o = c.bus.slaveOut (c.busIn io) 2 := ⟨_, rfl⟩
  have hnext : (c.next io).bus.xbar.errSlave = e.next o := by
    rw [he, ho]
    rfl
  have hport : c.bus.slaveIn (c.busIn io) 2 = e.ioIn := by rw [he]; rfl
  have har : arFire o e.ioIn = (decide (c.bus.readPath.Reaches 2) &&
      arFire (c.bus.readOwner (c.busIn io)) (c.bus.readPort (c.busIn io))) := by
    rw [← hport, ho]
    exact readSignal_arFire.slaveOut 2
  have hl : rLastFire o e.ioIn = (decide (c.bus.readPath.Reaches 2) &&
      rLastFire (c.bus.readOwner (c.busIn io)) (c.bus.readPort (c.busIn io))) := by
    rw [← hport, ho]
    exact readSignal_rLastFire.slaveOut 2
  rw [hnext, ← he]
  split_ifs with hj
  · rw [decide_eq_true hj, Bool.true_and] at har hl
    rw [readStart, readFin, decide_eq_true hj.1, Bool.true_and, Bool.true_and, ← har, ← hl]
    cases hst : e.rState with
    | idle =>
        have hno : rLastFire o e.ioIn = false := by
          simp [rLastFire, rFire, AXI4ErrorSlave.ioIn, hst]
        cases ha : arFire o e.ioIn <;> simp [AXI4ErrorSlave.next, hst, ha, hno]
    | busy =>
        have hno : arFire o e.ioIn = false := by simp [arFire, AXI4ErrorSlave.ioIn, hst]
        cases hlast : rLastFire o e.ioIn <;> simp [AXI4ErrorSlave.next, hst, hlast, hno]
  · rw [decide_eq_false hj, Bool.false_and] at har hl
    cases hst : e.rState <;> simp [AXI4ErrorSlave.next, hst, har, hl]

/-- The slave behind the external port is in the phase of its write after the cycle too. -/
theorem PortTrack.memory_phase (h : PortTrack c m) (hm : m.Complies (c.master io) io) :
    (m.next (c.master io) io).phase =
      if c.bus.writePath.Reaches 0 then c.phaseNext io m.phase else m.phase := by
  have hport : c.bus.slaveIn (c.busIn io) 0 = io := rfl
  refine slavePhase_next (hm.phase_next (slave_wLastFire 0) fun haw => ?_)
  have hsig : awFire (c.master io) io = _ :=
    writeSignal_awFire.slaveOut (s := c.bus) (i := c.busIn io) 0
  rw [haw, eq_comm, Bool.and_eq_true, decide_eq_true_eq] at hsig
  obtain ⟨hj, hfire⟩ := hsig
  rw [h.portPhase.same hj, writePhase_eq_idle_iff]
  exact writing_of_awValid _ (Bool.and_eq_true_iff.mp hfire).1

/-- A master that the path does not serve has no write outstanding. -/
theorem writePhase_quiet (h : BusPath.Inv (candidate slavesMap) c.bus.writePath c.writing
    fun k => writeReq (c.masters k)) : Quiet c.bus.writePath .idle c.writePhase :=
  fun k hk => (writePhase_eq_idle_iff k).mpr (h.quiet k hk)

/-- A write that ends leaves its master idle. -/
theorem phaseNext_of_fin (hf : c.bus.writeFin (c.busIn io) = true) :
    c.phaseNext io (c.writePhase c.bus.writePath.owner) = .idle := by
  have hb : bFire (c.masters c.bus.writePath.owner) (c.bus.writePort (c.busIn io)) = true :=
    (Bool.and_eq_true_iff.mp hf).2
  have hready := (Bool.and_eq_true_iff.mp hb).2
  have hresp : ∀ k : Fin 2, (c.masters k).bReady = true → c.writePhase k = .resp := by
    refine Fin.forall_fin_two.mpr ⟨fun h0 => ?_, fun h1 => ?_⟩
    · have hst : c.lsu.state = .wWaitMem := of_decide_eq_true h0
      simp [writePhase, hst]
    · exact absurd h1 Bool.false_ne_true
  rw [hresp _ hready, phaseNext, ErrorWriteState.step, if_pos]
  exact hb

/-- **The step.** -/
theorem PortTrack.next (h : PortTrack c m) (hm : m.Complies (c.master io) io) :
    PortTrack (c.next io) (m.next (c.master io) io) := by
  have hc := readCycle (h.reads.lsu_last hm.bursts)
  have hread := h.reads.reads.read
  have hreading := h.reading_next hm.bursts
  have hrpath : (c.next io).bus.readPath = c.bus.readPath.next (candidate slavesMap)
      (fun k => readReq (c.masters k)) (c.bus.readFin (c.busIn io)) := readPath_next
  have hwpath : (c.next io).bus.writePath = c.bus.writePath.next (candidate slavesMap)
      (fun k => writeReq (c.masters k)) (c.bus.writeFin (c.busIn io)) := writePath_next
  have hquiet : Quiet c.bus.readPath false fun k => decide (c.reading k ≠ []) := by
    intro k hk
    simp [hread.quiet k hk]
  refine ⟨h.reads.next hm.bursts, ?_, ?_, ?_, ?_⟩
  · rw [hrpath]
    exact h.error.next hquiet
      (fun b => !c.bus.readFin (c.busIn io) && (b || c.bus.readStart (c.busIn io)))
      hreading errSlave_rState_next fun _ hf => by simp [hf]
  · rw [hwpath]
    exact h.write.next writeCycle
  · rw [hwpath]
    exact h.portPhase.next (writePhase_quiet h.write) (c.phaseNext io) writePhase_next
      (h.memory_phase hm) fun _ hf => phaseNext_of_fin hf
  · rw [hwpath]
    have hlast : wLastFire (c.bus.slaveOut (c.busIn io) 2) c.bus.xbar.errSlave.ioIn =
        wFire (c.bus.slaveOut (c.busIn io) 2) c.bus.xbar.errSlave.ioIn := slave_wLastFire 2
    exact h.errorPhase.next (writePhase_quiet h.write) (c.phaseNext io) writePhase_next
      (slavePhase_next (AXI4ErrorSlave.wState_next _ hlast)) fun _ hf => phaseNext_of_fin hf

/-! ## Runs -/

section Runs

variable (r : machine.Run)

/-- The slave behind the external port does what `Memory.Complies` says and does not refuse forever
what it is offered or owes. -/
structure Responds : Prop where
  complies : ∀ t, (memory r t).Complies ((r.st t).master (r.inp t)) (r.inp t)
  readAddr : Recurs fun t => ((r.st t).master (r.inp t)).ar.valid = true → (r.inp t).arReady = true
  readData : Recurs fun t => (memory r t).reading ≠ none → (r.inp t).r.valid = true
  writeAddr : Recurs fun t => ((r.st t).master (r.inp t)).aw.valid = true →
    (r.inp t).awReady = true
  writeData : Recurs fun t => (memory r t).phase = .waitData →
    ((r.st t).master (r.inp t)).w.valid = true → (r.inp t).wReady = true
  writeResp : Recurs fun t => (memory r t).phase = .resp → (r.inp t).b.valid = true

variable {r} {t : ℕ}

/-- The ports are tracked in every run of a memory that complies. -/
theorem portTrack (hc : ∀ t, (memory r t).Complies ((r.st t).master (r.inp t)) (r.inp t)) (t : ℕ) :
    PortTrack (r.st t) (memory r t) := by
  induction t with
  | zero => exact PortTrack.of_reset r.start
  | succ t ih =>
      rw [r.step t]
      exact ih.next (hc t)

theorem Responds.track (h : Responds r) (t : ℕ) : PortTrack (r.st t) (memory r t) :=
  portTrack h.complies t

/-! ### The read path -/

/-- A master that has the path and nothing outstanding asks for something. -/
theorem PortTrack.owner_reads (h : PortTrack c m) (hb : c.bus.readPath.arb = .busy)
    (hnil : c.reading c.bus.readPath.owner = []) :
    (c.masters c.bus.readPath.owner).ar.valid = true := by
  obtain ⟨a, ha, -⟩ := h.reads.reads.read.waits hb
  rw [hnil, current_nil] at ha
  rw [← readReq_isSome, ha]
  rfl

/-- The slaves take the address that is connected to them, the external one when it is ready. -/
theorem PortTrack.readStart (h : PortTrack c m)
    (hready : (c.master io).ar.valid = true → io.arReady = true) (ho : c.bus.readPath.Open)
    (hnil : c.reading c.bus.readPath.owner = []) : c.bus.readStart (c.busIn io) = true := by
  have hv : (c.bus.readOwner (c.busIn io)).ar.valid = true := h.owner_reads ho.1 hnil
  have hport : (c.bus.readPort (c.busIn io)).arReady = true := by
    rw [readPort]
    rcases slave_cases c.bus.readPath.port with h0 | h1 | h2
    · have hj : c.bus.readPath.Reaches 0 := ⟨ho, h0.symm⟩
      rw [show c.bus.xbar.rOwnerId = 0 from h0]
      refine hready ?_
      rw [master, (slaveOut_read_of_reaches hj).1]
      exact hv
    · rw [show c.bus.xbar.rOwnerId = 1 from h1]
      rfl
    · have hbusy := h.error.same ⟨ho, h2.symm⟩
      rw [show c.bus.xbar.rOwnerId = 2 from h2]
      refine decide_eq_true ?_
      rw [hnil] at hbusy
      refine (state_cases _).resolve_right fun hb => ?_
      simp [hb] at hbusy
  rw [Interconnect.readStart, decide_eq_true ho, arFire, hv, hport]
  rfl

/-- A slave that owes a beat to what is connected to it. -/
theorem PortTrack.owed (h : PortTrack c m) (hj : c.bus.readPath.Reaches 0)
    (hne : c.reading c.bus.readPath.owner ≠ []) :
    m.reading = c.bursts c.bus.readPath.owner ∧ m.reading ≠ none := by
  have hb := h.reads.reads.burst
  rw [if_pos hj] at hb
  exact ⟨hb, fun hnone => hne ((bursts_eq_none_iff _).mp (hb ▸ hnone))⟩

/-- The slaves give a beat of what has begun, the external one when it has one. -/
theorem PortTrack.beat (h : PortTrack c m) (hvalid : c.bus.readPath.Reaches 0 → io.r.valid = true)
    (ho : c.bus.readPath.Open) (hne : c.reading c.bus.readPath.owner ≠ []) :
    rFire (c.bus.readOwner (c.busIn io)) (c.bus.readPort (c.busIn io)) = true := by
  have hready : ∀ k : Fin 2, c.reading k ≠ [] → (c.masters k).rReady = true := by
    refine Fin.forall_fin_two.mpr ⟨fun h0 => ?_, fun h1 => ?_⟩
    · have hst : c.lsu.state = .rWaitMem := by
        by_contra hst
        simp [reading, hst] at h0
      exact decide_eq_true hst
    · have hst : c.ifu.icache.state = .waitMem := by
        by_contra hst
        simp [reading, hst] at h1
      exact decide_eq_true hst
  have hv : (c.bus.readPort (c.busIn io)).r.valid = true := by
    rw [readPort]
    rcases slave_cases c.bus.readPath.port with h0 | h1 | h2
    · rw [show c.bus.xbar.rOwnerId = 0 from h0]
      exact hvalid ⟨ho, h0.symm⟩
    · rw [show c.bus.xbar.rOwnerId = 1 from h1]
      rfl
    · rw [show c.bus.xbar.rOwnerId = 2 from h2]
      have hbusy := h.error.same ⟨ho, h2.symm⟩
      rw [decide_eq_true hne] at hbusy
      exact hbusy
  rw [rFire, hv, Bool.true_and]
  exact hready _ hne

/-- The beats a read still has, beside the next one. -/
def beatsLeft (c : Core) : ℕ :=
  if c.bus.readPath.port = 0 then
    (c.bursts c.bus.readPath.owner).elim 0 fun b => b.ar.len.toNat - b.beat
  else if c.bus.readPath.port = 2 then c.bus.xbar.errSlave.rCnt.toNat else 0

/-- A burst has no more beats than it was asked for. -/
theorem beat_le : ∀ k : Fin 2, ∀ b, c.bursts k = some b → b.beat ≤ b.ar.len.toNat := by
  refine Fin.forall_fin_two.mpr ⟨fun b h0 => ?_, fun b h1 => ?_⟩
  · rw [show c.bursts 0 = if c.lsu.state = .rWaitMem then
      some ⟨(c.lsu.memOut c.lsuIn).ar.bits, 0⟩ else none from rfl] at h0
    split_ifs at h0
    cases h0
    exact Nat.zero_le _
  · rw [show c.bursts 1 = if c.ifu.icache.state = .waitMem then
      some ⟨c.ifu.icache.memOut.ar.bits, c.ifu.icache.fillCnt.toNat⟩ else none from rfl] at h1
    split_ifs at h1
    cases h1
    exact Nat.le_of_lt_succ c.ifu.icache.fillCnt.isLt

/-- What happens to a read that has begun and does not end in this cycle. -/
theorem PortTrack.read_goes_on (h : PortTrack c m) (hb : ReadsInBursts m.reading io)
    (ho : c.bus.readPath.Open) (hne : c.reading c.bus.readPath.owner ≠ [])
    (hf : c.bus.readFin (c.busIn io) = false) :
    (c.next io).bus.readPath = c.bus.readPath ∧ (c.next io).reading c.bus.readPath.owner ≠ [] ∧
      (c.bus.readPath.Reaches 0 → (c.next io).bursts c.bus.readPath.owner =
        readNext (c.bursts c.bus.readPath.owner) (c.master io) io) := by
  have hk : c.bus.readPath.Connected c.bus.readPath.owner := ⟨ho, rfl⟩
  refine ⟨?_, ?_, fun hj => ?_⟩
  · rw [show (c.next io).bus = c.bus.next slavesMap (c.busIn io) from rfl, readPath_next, hf]
    exact next_of_open ho rfl
  · have hnext := h.reading_next hb c.bus.readPath.owner
    rw [if_pos hk, hf, decide_eq_true hne] at hnext
    exact of_decide_eq_true hnext
  · exact h.reads.reads.bursts_next (h.reads.lsu_last hb) hb hj hf _ hk

/-- A beat that is not the last one leaves fewer beats. -/
theorem PortTrack.beatsLeft_lt (h : PortTrack c m) (hb : ReadsInBursts m.reading io)
    (ho : c.bus.readPath.Open) (hne : c.reading c.bus.readPath.owner ≠ [])
    (hf : c.bus.readFin (c.busIn io) = false)
    (hr : rFire (c.bus.readOwner (c.busIn io)) (c.bus.readPort (c.busIn io)) = true) :
    (c.next io).beatsLeft < c.beatsLeft := by
  obtain ⟨hpath, -, hburst⟩ := h.read_goes_on hb ho hne hf
  have hnl : (c.bus.readPort (c.busIn io)).r.bits.last = false := by
    rw [readFin, decide_eq_true ho, Bool.true_and, rLastFire, hr, Bool.true_and] at hf
    exact hf
  have hsig : ∀ j, rFire (c.bus.slaveOut (c.busIn io) j) (c.bus.slaveIn (c.busIn io) j) =
      decide (c.bus.readPath.Reaches j) := by
    intro j
    rw [readSignal_rFire.slaveOut, hr, Bool.and_true]
  rcases slave_cases c.bus.readPath.port with h0 | h1 | h2
  · have hj : c.bus.readPath.Reaches 0 := ⟨ho, h0.symm⟩
    obtain ⟨hm, hsome⟩ := h.owed hj hne
    obtain ⟨b, hbm⟩ := Option.ne_none_iff_exists'.mp hsome
    have hbk : c.bursts c.bus.readPath.owner = some b := hm ▸ hbm
    rw [readPort_of_reaches hj] at hnl
    have hfire : rFire (c.master io) io = true := (hsig 0).trans (decide_eq_true hj)
    have hne' : b.beat ≠ b.ar.len.toNat := by
      obtain ⟨b', hb', hlast⟩ := hb (Bool.and_eq_true_iff.mp hfire).1
      rw [hbm, Option.some_inj] at hb'
      subst hb'
      exact fun heq => Bool.false_ne_true (hnl.symm.trans (hlast.mpr heq))
    have hle := beat_le _ b hbk
    have hnext := hburst hj
    rw [hbk, readNext_some_of_not_last hfire hnl] at hnext
    simp only [beatsLeft, hpath, h0, if_true, hbk, hnext, Option.elim_some]
    omega
  · rw [readPort, show c.bus.xbar.rOwnerId = 1 from h1] at hnl
    cases (show true = false from hnl)
  · have hj : c.bus.readPath.Reaches 2 := ⟨ho, h2.symm⟩
    have hfire : rFire (c.bus.slaveOut (c.busIn io) 2) c.bus.xbar.errSlave.ioIn = true :=
      (hsig 2).trans (decide_eq_true hj)
    rw [readPort, show c.bus.xbar.rOwnerId = 2 from h2] at hnl
    have hne' : c.bus.xbar.errSlave.rCnt ≠ 0 := of_decide_eq_false hnl
    have hcnt : (c.next io).bus.xbar.errSlave.rCnt = c.bus.xbar.errSlave.rCnt - 1 :=
      (AXI4ErrorSlave.next_of_rFire hfire).2.2.2
    have hpred := AXI4ErrorSlave.rCnt_pred hne'
    simp only [beatsLeft, hpath, h2, hcnt]
    simp
    omega

/-- Only the external slave makes a read wait, and then the beats stay. -/
theorem PortTrack.beatsLeft_stall (h : PortTrack c m) (hb : ReadsInBursts m.reading io)
    (ho : c.bus.readPath.Open) (hne : c.reading c.bus.readPath.owner ≠ [])
    (hf : c.bus.readFin (c.busIn io) = false)
    (hr : ¬ rFire (c.bus.readOwner (c.busIn io)) (c.bus.readPort (c.busIn io)) = true) :
    (c.next io).beatsLeft = c.beatsLeft := by
  obtain ⟨hpath, -, hburst⟩ := h.read_goes_on hb ho hne hf
  have hj : c.bus.readPath.Reaches 0 := by
    by_contra hj
    exact hr (h.beat (fun hj' => absurd hj' hj) ho hne)
  obtain ⟨hm, hsome⟩ := h.owed hj hne
  obtain ⟨b, hbm⟩ := Option.ne_none_iff_exists'.mp hsome
  have hbk : c.bursts c.bus.readPath.owner = some b := hm ▸ hbm
  have hfire : rFire (c.master io) io = false := by
    have hsig : rFire (c.master io) io = _ :=
      readSignal_rFire.slaveOut (s := c.bus) (i := c.busIn io) 0
    rw [hsig, Bool.eq_false_of_not_eq_true hr, Bool.and_false]
  have hnext := hburst hj
  rw [hbk, readNext_some_of_not_fire hfire] at hnext
  simp only [beatsLeft, hpath, hbk, hnext]
  rw [if_pos hj.2.symm, if_pos hj.2.symm]

/-- **A read that has begun ends.** -/
theorem Responds.read_ends (h : Responds r) :
    LeadsTo (fun t => (r.st t).bus.readPath.Open ∧
      (r.st t).reading (r.st t).bus.readPath.owner ≠ [])
      fun t => (r.st t).bus.readFin ((r.st t).busIn (r.inp t)) = true := by
  refine LeadsTo.measure (fun t => (r.st t).beatsLeft) fun n => ?_
  have hgo : ∀ t, (r.st t).bus.readPath.Open ∧
      (r.st t).reading (r.st t).bus.readPath.owner ≠ [] →
      (r.st t).bus.readFin ((r.st t).busIn (r.inp t)) = false →
      (r.st (t + 1)).bus.readPath.Open ∧
        (r.st (t + 1)).reading (r.st (t + 1)).bus.readPath.owner ≠ [] := by
    rintro t ⟨ho, hne⟩ hf
    obtain ⟨hpath, hne', -⟩ := (h.track t).read_goes_on (h.complies t).bursts ho hne hf
    have hpath' : (r.st (t + 1)).bus.readPath = (r.st t).bus.readPath := by
      rw [r.step t]
      exact hpath
    rw [hpath']
    refine ⟨ho, ?_⟩
    rw [r.step t]
    exact hne'
  refine (LeadsTo.meets (e := fun t => rFire ((r.st t).bus.readOwner ((r.st t).busIn (r.inp t)))
    ((r.st t).bus.readPort ((r.st t).busIn (r.inp t))) = true) ?_ ?_).trans ?_
  · refine h.readData.mono fun t hv ht => ?_
    exact (h.track t).beat (fun hj => hv ((h.track t).owed hj ht.1.2).2) ht.1.1 ht.1.2
  · rintro t ⟨ht, hn⟩ hr
    have hf : (r.st t).bus.readFin ((r.st t).busIn (r.inp t)) = false := by
      rw [readFin, rLastFire, Bool.eq_false_of_not_eq_true hr, Bool.false_and, Bool.and_false]
    refine ⟨hgo t ht hf, ?_⟩
    rw [← hn, r.step t]
    exact (h.track t).beatsLeft_stall (h.complies t).bursts ht.1 ht.2 hf hr
  · refine LeadsTo.by_cases (fun t => (r.st t).bus.readFin ((r.st t).busIn (r.inp t)) = true)
      (LeadsTo.of_imp fun t ht => .inl ht.2) (LeadsTo.of_next ?_)
    rintro t ⟨⟨⟨ht, hn⟩, hr⟩, hf⟩
    have hf' := Bool.eq_false_of_not_eq_true hf
    refine .inr ⟨hgo t ht hf', ?_⟩
    rw [← hn, r.step t]
    exact (h.track t).beatsLeft_lt (h.complies t).bursts ht.1 ht.2 hf' hr

/-- The reads make progress. -/
theorem Responds.reads (h : Responds r) : Progresses (candidate slavesMap)
    (fun t => (r.st t).bus.readPath) (fun t => (r.st t).reading)
    (fun t k => readReq ((r.st t).masters k))
    (fun t => (r.st t).bus.readStart ((r.st t).busIn (r.inp t)))
    (fun t => (r.st t).bus.readFin ((r.st t).busIn (r.inp t))) where
  step t := by
    rw [r.step t]
    exact readPath_next
  inv t := (h.track t).reads.reads.read
  cycle t := by
    rw [r.step t]
    exact readCycle ((h.track t).reads.lsu_last (h.complies t).bursts)
  starts := h.readAddr.mono fun t hready ht => (h.track t).readStart hready ht.1 ht.2
  ends := h.read_ends

/-! ### The write path -/

/-- Only the load and store unit writes. -/
theorem PortTrack.owner_writes (h : PortTrack c m) (hb : c.bus.writePath.arb = .busy) :
    c.bus.writePath.owner = 0 := by
  obtain ⟨a, ha, -⟩ := h.write.waits hb
  rcases (show ∀ k : Fin 2, k = 0 ∨ k = 1 by decide) c.bus.writePath.owner with hk | hk
  · exact hk
  · rw [hk, current_cache_write] at ha
    exact absurd ha (by simp)

/-- What a slave on the write path drives depends on the phase of the write only. -/
theorem PortTrack.writePort_ready (h : PortTrack c m) (ho : c.bus.writePath.Open)
    (ready : In → Bool) {p : ErrorWriteState} (hp : c.writePhase 0 = p)
    (hclint : ready c.clint.ioIn = true) (herror : ∀ e : AXI4ErrorSlave, e.wState = p →
      ready e.ioIn = true)
    (hport : c.bus.writePath.Reaches 0 → m.phase = p → ready io = true) :
    ready (c.bus.writePort (c.busIn io)) = true := by
  have hown := h.owner_writes ho.1
  rw [writePort]
  rcases slave_cases c.bus.writePath.port with h0 | h1 | h2
  · have hj : c.bus.writePath.Reaches 0 := ⟨ho, h0.symm⟩
    rw [show c.bus.xbar.wOwnerId = 0 from h0]
    refine hport hj ?_
    rw [h.portPhase.same hj, hown, hp]
  · rw [show c.bus.xbar.wOwnerId = 1 from h1]
    exact hclint
  · rw [show c.bus.xbar.wOwnerId = 2 from h2]
    refine herror _ ?_
    rw [h.errorPhase.same ⟨ho, h2.symm⟩, hown, hp]

/-- The owner of an open path is the load and store unit. -/
theorem PortTrack.writeOwner (h : PortTrack c m) (ho : c.bus.writePath.Open) :
    c.bus.writeOwner (c.busIn io) = c.masters 0 := congrArg c.masters (h.owner_writes ho.1)

/-- The slaves take the address that is connected to them. -/
theorem PortTrack.writeStart (h : PortTrack c m)
    (hready : (c.master io).aw.valid = true → io.awReady = true) (ho : c.bus.writePath.Open)
    (hnil : c.writing c.bus.writePath.owner = []) : c.bus.writeStart (c.busIn io) = true := by
  have hown := h.owner_writes ho.1
  have hv : (c.masters 0).aw.valid = true := by
    obtain ⟨a, ha, -⟩ := h.write.waits ho.1
    rw [hnil, current_nil, hown] at ha
    rw [← writeReq_isSome, ha]
    rfl
  rw [hown] at hnil
  have hport : (c.bus.writePort (c.busIn io)).awReady = true := h.writePort_ready ho In.awReady
    ((writePhase_eq_idle_iff 0).mpr hnil) rfl (fun e he => decide_eq_true he) fun hj _ => by
      refine hready ?_
      rw [master, (slaveOut_write_of_reaches hj).1, h.writeOwner ho]
      exact hv
  rw [Interconnect.writeStart, decide_eq_true ho, awFire, h.writeOwner ho, hv, hport]
  rfl

/-- They take its data. -/
theorem PortTrack.writeData (h : PortTrack c m)
    (hready : m.phase = .waitData → (c.master io).w.valid = true → io.wReady = true)
    (ho : c.bus.writePath.Open) (hst : c.lsu.state = .wData) :
    wFire (c.masters 0) (c.bus.writePort (c.busIn io)) = true := by
  have hv : (c.masters 0).w.valid = true := by
    change (decide (c.lsu.state = .wAddr) || decide (c.lsu.state = .wData)) = true
    simp [hst]
  have hphase : c.writePhase 0 = .waitData := by simp [writePhase, hst]
  have hport : (c.bus.writePort (c.busIn io)).wReady = true :=
    h.writePort_ready ho In.wReady hphase rfl
    (fun e he => decide_eq_true he) fun hj hp => by
      refine hready hp ?_
      rw [master, (slaveOut_write_of_reaches hj).2.1, h.writeOwner ho]
      exact hv
  rw [wFire, hv, hport]
  rfl

/-- They respond to it. -/
theorem PortTrack.writeResp (h : PortTrack c m)
    (hvalid : m.phase = .resp → io.b.valid = true) (ho : c.bus.writePath.Open)
    (hst : c.lsu.state = .wWaitMem) : c.bus.writeFin (c.busIn io) = true := by
  have hphase : c.writePhase 0 = .resp := by simp [writePhase, hst]
  have hport : (c.bus.writePort (c.busIn io)).b.valid = true :=
    h.writePort_ready ho (fun i => i.b.valid) hphase rfl
    (fun e he => decide_eq_true he) fun _ hp => hvalid hp
  have hready : (c.masters 0).bReady = true := decide_eq_true hst
  rw [writeFin, decide_eq_true ho, bFire, h.writeOwner ho, hready, hport]
  rfl

/-- An open path stays as it is until its write ends. -/
theorem writePath_keeps (ho : c.bus.writePath.Open) (hf : c.bus.writeFin (c.busIn io) = false) :
    (c.next io).bus.writePath = c.bus.writePath := by
  rw [show (c.next io).bus = c.bus.next slavesMap (c.busIn io) from rfl, writePath_next, hf]
  exact next_of_open ho rfl

/-- A write handshake on the path is one of the load and store unit. -/
theorem PortTrack.write_path_signal (h : PortTrack c m) (ho : c.bus.writePath.Open)
    {f : Out → In → Bool} (hf : WriteSignal f) :
    f (c.masters 0) (c.lsuMem io) = f (c.masters 0) (c.bus.writePort (c.busIn io)) := by
  have hk : c.bus.writePath.Connected 0 := ⟨ho, (h.owner_writes ho.1).symm⟩
  have hsig : f (c.masters 0) (c.lsuMem io) = _ := hf.masterIn (s := c.bus) (i := c.busIn io) 0
  rw [hsig, decide_eq_true hk, Bool.true_and, h.writeOwner ho]

/-- The data of a write goes out. -/
theorem Responds.data_ends (h : Responds r) :
    LeadsTo (fun t => (r.st t).bus.writePath.Open ∧ (r.st t).lsu.state = .wData)
      fun t => (r.st t).bus.writePath.Open ∧ (r.st t).lsu.state = .wWaitMem := by
  have hkeep : ∀ t, (r.st t).bus.writePath.Open → (r.st t).lsu.state = .wData →
      (r.st (t + 1)).bus.writePath.Open := by
    intro t ho hst
    have hf : (r.st t).bus.writeFin ((r.st t).busIn (r.inp t)) = false := by
      rw [writeFin, decide_eq_true ho, Bool.true_and, (h.track t).writeOwner ho,
        show bFire ((r.st t).masters 0) _ = bFire ((r.st t).lsu.memOut (r.st t).lsuIn) _ from rfl,
        LSU.bFire_memOut, hst]
      exact Bool.and_false _
    rw [r.step t]
    show (Core.next (r.st t) (r.inp t)).bus.writePath.Open
    rw [writePath_keeps ho hf]
    exact ho
  have hnext : ∀ t, (r.st t).lsu.state = .wData → (r.st (t + 1)).lsu.state =
      if wFire ((r.st t).masters 0) ((r.st t).lsuMem (r.inp t)) = true then .wWaitMem
      else .wData := by
    intro t hst
    rw [r.step t]
    show (Core.next (r.st t) (r.inp t)).lsu.state = _
    rw [next_lsu_state, LSU.nextState, hst]
    rfl
  refine (LeadsTo.meets (e := fun t =>
    wFire ((r.st t).masters 0) ((r.st t).lsuMem (r.inp t)) = true) ?_ ?_).trans (LeadsTo.of_next ?_)
  · refine h.writeData.mono ?_
    rintro t hready ⟨ho, hst⟩
    rw [(h.track t).write_path_signal ho writeSignal_wFire]
    exact (h.track t).writeData hready ho hst
  · rintro t ⟨ho, hst⟩ hw
    refine ⟨hkeep t ho hst, ?_⟩
    rw [hnext t hst, if_neg hw]
  · rintro t ⟨⟨ho, hst⟩, hw⟩
    refine ⟨hkeep t ho hst, ?_⟩
    rw [hnext t hst, if_pos hw]

/-- The response of a write comes back. -/
theorem Responds.response_comes (h : Responds r) :
    LeadsTo (fun t => (r.st t).bus.writePath.Open ∧ (r.st t).lsu.state = .wWaitMem)
      fun t => (r.st t).bus.writeFin ((r.st t).busIn (r.inp t)) = true := by
  refine (LeadsTo.meets (e := fun t =>
    (r.st t).bus.writeFin ((r.st t).busIn (r.inp t)) = true) ?_ ?_).mono (fun _ ht => ht)
      fun _ ht => ht.2
  · refine h.writeResp.mono ?_
    rintro t hvalid ⟨ho, hst⟩
    exact (h.track t).writeResp hvalid ho hst
  · rintro t ⟨ho, hst⟩ hf
    have hf' := Bool.eq_false_of_not_eq_true hf
    have hb : bFire ((r.st t).masters 0) ((r.st t).lsuMem (r.inp t)) = false := by
      rw [(h.track t).write_path_signal ho writeSignal_bFire]
      rw [writeFin, decide_eq_true ho, Bool.true_and, (h.track t).writeOwner ho] at hf'
      exact hf'
    have hpath : (r.st (t + 1)).bus.writePath = (r.st t).bus.writePath := by
      rw [r.step t]
      exact writePath_keeps ho hf'
    rw [hpath]
    refine ⟨ho, ?_⟩
    rw [r.step t]
    show (Core.next (r.st t) (r.inp t)).lsu.state = _
    rw [next_lsu_state, LSU.nextState, hst]
    exact if_neg fun hb' => Bool.false_ne_true (hb.symm.trans hb')

/-- **A write that has begun ends.** -/
theorem Responds.write_ends (h : Responds r) :
    LeadsTo (fun t => (r.st t).bus.writePath.Open ∧
      (r.st t).writing (r.st t).bus.writePath.owner ≠ [])
      fun t => (r.st t).bus.writeFin ((r.st t).busIn (r.inp t)) = true := by
  have hboth := h.data_ends.trans h.response_comes
  refine (hboth.or h.response_comes).mono ?_ fun _ ht => ht
  rintro t ⟨ho, hne⟩
  rw [(h.track t).owner_writes ho.1] at hne
  have hst : (r.st t).lsu.state = .wData ∨ (r.st t).lsu.state = .wWaitMem := by
    by_contra hst
    exact hne (if_neg hst)
  exact hst.imp (fun hd => ⟨ho, hd⟩) fun hw => ⟨ho, hw⟩

/-- The writes make progress. -/
theorem Responds.writes (h : Responds r) : Progresses (candidate slavesMap)
    (fun t => (r.st t).bus.writePath) (fun t => (r.st t).writing)
    (fun t k => writeReq ((r.st t).masters k))
    (fun t => (r.st t).bus.writeStart ((r.st t).busIn (r.inp t)))
    (fun t => (r.st t).bus.writeFin ((r.st t).busIn (r.inp t))) where
  step t := by
    rw [r.step t]
    exact writePath_next
  inv t := (h.track t).write
  cycle t := by
    rw [r.step t]
    exact writeCycle
  starts := h.writeAddr.mono fun t hready ht => (h.track t).writeStart hready ht.1 ht.2
  ends := h.write_ends

/-! ### The masters -/

/-- A load that the unit has asked for is answered. -/
theorem Responds.load_ends (h : Responds r) :
    LeadsTo (fun t => (r.st t).lsu.state = .rAddr ∨ (r.st t).lsu.state = .rWaitMem)
      fun t => (r.st t).lsu.state = .waitReady := by
  refine (h.reads.served_first.mono ?_ fun _ ht => ht).trans (LeadsTo.of_next ?_)
  · rintro t hst
    rw [Wants, lsu_readReq]
    rcases hst with hst | hst <;> simp [reading, hst]
  · rintro t ⟨hf, hown⟩
    have hfire : rLastFire ((r.st t).masters 0) ((r.st t).lsuMem (r.inp t)) = true := by
      have hsig : rLastFire ((r.st t).masters 0) ((r.st t).lsuMem (r.inp t)) = _ :=
        readSignal_rLastFire.masterIn (s := (r.st t).bus) (i := (r.st t).busIn (r.inp t)) 0
      obtain ⟨ho, hl⟩ := Bool.and_eq_true_iff.mp hf
      rw [hsig, hl, Bool.and_true]
      exact decide_eq_true ⟨of_decide_eq_true ho, hown.symm⟩
    have hr : rFire ((r.st t).masters 0) ((r.st t).lsuMem (r.inp t)) = true :=
      (Bool.and_eq_true_iff.mp hfire).1
    rw [r.step t]
    show (Core.next (r.st t) (r.inp t)).lsu.state = _
    rw [next_lsu_state, LSU.nextState, reading_lsu hr]
    exact if_pos hr

/-- A store that the unit has asked for is answered. -/
theorem Responds.store_ends (h : Responds r) :
    LeadsTo (fun t => (r.st t).lsu.state = .wAddr ∨ (r.st t).lsu.state = .wData ∨
      (r.st t).lsu.state = .wWaitMem) fun t => (r.st t).lsu.state = .waitReady := by
  refine (h.writes.served_first.mono ?_ fun _ ht => ht).trans (LeadsTo.of_next ?_)
  · rintro t hst
    rw [Wants, lsu_writeReq]
    rcases hst with hst | hst | hst <;> simp [writing, hst]
  · rintro t ⟨hf, hown⟩
    obtain ⟨ho, hb⟩ := Bool.and_eq_true_iff.mp hf
    have hopen := of_decide_eq_true ho
    have hfire : bFire ((r.st t).masters 0) ((r.st t).lsuMem (r.inp t)) = true := by
      rw [(h.track t).write_path_signal hopen writeSignal_bFire, ← (h.track t).writeOwner hopen]
      exact hb
    rw [r.step t]
    show (Core.next (r.st t) (r.inp t)).lsu.state = _
    rw [next_lsu_state, LSU.nextState, lsu_state_of_bFire hfire]
    exact if_pos hfire

/-- **Every access of the load and store unit ends.** -/
theorem Responds.access_ends (h : Responds r) :
    LeadsTo (fun t => Accesses (r.st t)) fun t => (r.st t).lsu.state = .waitReady := by
  refine (h.load_ends.or h.store_ends).mono ?_ fun _ ht => ht
  rintro t ⟨hidle, hwait⟩
  cases hst : (r.st t).lsu.state <;> simp_all

/-- A fill of the cache ends, unless the load and store unit reads. -/
theorem Responds.fill_ends (h : Responds r) :
    LeadsTo (fun t => (cache r t).state = .fillAddr ∨ (cache r t).state = .waitMem)
      fun t => (cache r t).fillDone (cacheIn r t) = true ∨
        ((r.st t).lsu.state = .rAddr ∨ (r.st t).lsu.state = .rWaitMem) := by
  refine (h.reads.served 1).mono ?_ ?_
  · rintro t hst
    rw [Wants, cache_readReq]
    rcases hst with hst | hst <;> simp [reading, hst]
  · rintro t (⟨hf, hown⟩ | ⟨j, hj, hw⟩)
    · left
      obtain ⟨ho, hl⟩ := Bool.and_eq_true_iff.mp hf
      have hsig : rLastFire ((r.st t).masters 1) ((r.st t).ifuMem (r.inp t)) = _ :=
        readSignal_rLastFire.masterIn (s := (r.st t).bus) (i := (r.st t).busIn (r.inp t)) 1
      rw [← cache_rLastFire, hsig, hl, Bool.and_true]
      exact decide_eq_true ⟨of_decide_eq_true ho, hown.symm⟩
    · right
      obtain rfl : j = 0 := Fin.lt_one_iff j |>.mp hj
      rw [Wants, lsu_readReq] at hw
      cases hst : (r.st t).lsu.state <;> simp [reading, hst] at hw ⊢

/-! ### A slave that responds -/

/-- The data of a write comes after its address. -/
theorem memory_written
    (hc : ∀ t, (memory r t).Complies ((r.st t).master (r.inp t)) (r.inp t)) (t : ℕ)
    (hw : (memory r t).written = true) : (memory r t).writing.isSome = true := by
  induction t with
  | zero => exact absurd hw Bool.false_ne_true
  | succ t ih =>
      have hdata := (hc t).dataAfterAddress
      rw [memory, r.watch_succ, ← memory] at hw ⊢
      simp only [Memory.next] at hw ⊢
      cases hb : bFire ((r.st t).master (r.inp t)) (r.inp t) with
      | true => simp [hb] at hw
      | false =>
          simp only [hb, Bool.false_eq_true, if_false, Bool.or_eq_true] at hw ⊢
          cases ha : awFire ((r.st t).master (r.inp t)) (r.inp t) with
          | true => rfl
          | false =>
              rcases hw with hw | hw
              · exact ih hw
              · have hfire := hdata (Bool.and_eq_true_iff.mp hw).1
                simpa [ha] using hfire

/-- A slave that is asked for a read owes nothing. -/
theorem PortTrack.reading_of_arValid (h : PortTrack c m) (har : (c.master io).ar.valid = true) :
    m.reading = none := by
  rw [h.reads.reads.burst]
  split_ifs with hj
  · rw [bursts_eq_none_iff]
    rw [master, (slaveOut_read_of_reaches hj).1] at har
    exact Core.reading_of_arValid _ har
  · rfl

/-- A slave that is asked for a write is taking none. -/
theorem PortTrack.phase_of_awValid (h : PortTrack c m) (haw : (c.master io).aw.valid = true) :
    m.phase = .idle := by
  have hj : c.bus.writePath.Reaches 0 := by
    by_contra hj
    rw [master, (slaveOut_write_of_not_reaches hj).1] at haw
    exact absurd haw Bool.false_ne_true
  rw [master, (slaveOut_write_of_reaches hj).1] at haw
  exact (h.portPhase.same hj).trans ((writePhase_eq_idle_iff _).mpr (writing_of_awValid _ haw))

/-- **The memory of the simulation responds**, with any contents. -/
theorem onMemory_responds (init : Bytes) : Responds (onMemory init) := by
  have hc : ∀ t, (memory (onMemory init) t).Complies
      (((onMemory init).st t).master ((onMemory init).inp t)) ((onMemory init).inp t) := by
    intro t
    rw [onMemory_inp]
    exact (Memory.respond_answers ..).complies
  have htrack := portTrack hc
  refine ⟨hc, Recurs.of_forall fun t har => ?_, Recurs.of_forall fun t hread => ?_,
    Recurs.of_forall fun t haw => ?_, Recurs.of_forall fun t hp _ => ?_,
    Recurs.of_forall fun t hp => ?_⟩
  · have hnone := (htrack t).reading_of_arValid har
    rw [onMemory_inp]
    exact Option.isNone_iff_eq_none.mpr hnone
  · rw [onMemory_inp]
    obtain ⟨b, hb⟩ := Option.ne_none_iff_exists'.mp hread
    simp [Memory.respond, answer, hb]
  · have hp := (htrack t).phase_of_awValid haw
    rw [onMemory_inp]
    rw [Memory.phase] at hp
    split_ifs at hp with h1 h2
    simpa [Memory.respond] using h2
  · rw [onMemory_inp]
    rw [Memory.phase] at hp
    simp only [Memory.respond]
    split_ifs at hp with h1 h2
    simp [h1, h2]
  · rw [onMemory_inp]
    have hw : (memory (onMemory init) t).written = true := by
      rw [Memory.phase] at hp
      by_contra hno
      rw [if_neg hno] at hp
      split_ifs at hp
    simp [Memory.respond, hw, memory_written hc t hw]

end Runs

end Core

end Bailuwan
