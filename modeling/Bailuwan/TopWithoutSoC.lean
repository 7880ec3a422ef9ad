/-
# The core and its memory (`TopWithoutSoC.scala`, `sim/common/dpic.cpp`)

The design that is simulated without the SoC: the core with its external port at `DPICMem`, and
behind the DPI calls what `DUTMemory` holds.  At each clock edge `pmem_read` and `pmem_write` are
called, in either order, so a read may see what is written at the same edge; a call outside the
areas of the simulator is `out_of_bound_abort`, and there is no next state.

`DPICMem.Track` ties the registers of the memory to the handshakes of its port, `Inv` ties the design
to the reference model, and an edge without a next state is one where the instruction cache reads
a line that the program does not execute (`Inv.aborts`).  `completes` puts the pieces together: a
program whose code and data are in the areas does what it does on the reference model, to the
end, unless the simulation ends in such a fetch.
-/
import Bailuwan.LateMemory
import Bailuwan.CompleteRuns
import Bailuwan.LaneMemory

namespace Bailuwan

open Synchronous AXI4 BusPath Interconnect

/-! ## The memory as a slave -/

namespace DPICMem

variable {d : DPICMem} {m : Memory} {i : DPICMemIn}

/-- `pmem_read` is called at the edges after which a read is under way. -/
theorem memReadEn_iff (d : DPICMem) (i : DPICMemIn) :
    d.memReadEn i = true ↔ (d.next i).rState = .dataValid := by
  cases hs : d.rState <;> simp [memReadEn, next, hs]

/-- The registers of the memory follow the handshakes of its port, every write being one beat. -/
structure Track (d : DPICMem) (m : Memory) : Prop where
  reading : m.reading = if d.rState = .dataValid then some ⟨d.rCtx, d.rCnt.toNat⟩ else none
  rCnt : d.rState = .dataValid → d.rCnt.toNat ≤ d.rCtx.len.toNat
  rAddr : d.rState = .dataValid → d.rAddr = beatAddr d.rCtx d.rCnt.toNat
  writing : m.writing = if d.wState = .idle then none else some d.wCtx.addr
  wAddr : d.wState = .data → d.wAddr = d.wCtx.addr
  written : m.written = decide (d.wState = .resp)

/-- After reset nothing is tracked. -/
theorem Track.of_reset (h : d.IsReset) : Track d {} := by
  constructor <;> simp [h.rState, h.wState]

/-- The beat after one that is not the last. -/
theorem Track.succ_rCnt (h : Track d m) (hs : d.rState = .dataValid) (hl : d.rCnt ≠ d.rCtx.len) :
    (d.rCnt + 1).toNat = d.rCnt.toNat + 1 ∧ d.rCnt.toNat + 1 ≤ d.rCtx.len.toNat := by
  have hle := h.rCnt hs
  have hlen := d.rCtx.len.isLt
  have hne : d.rCnt.toNat ≠ d.rCtx.len.toNat := fun heq => hl (BitVec.eq_of_toNat_eq heq)
  refine ⟨?_, by omega⟩
  rw [BitVec.toNat_add, show (1 : BitVec 8).toNat = 1 from rfl, Nat.mod_eq_of_lt (by omega)]

/-- The registers of a read after a cycle. -/
theorem Track.next_reads (h : Track d m) {d' : DPICMem} (hd : d' = d.next i) :
    (m.next i.io d.ioIn).reading =
        (if d'.rState = .dataValid then some ⟨d'.rCtx, d'.rCnt.toNat⟩ else none) ∧
      (d'.rState = .dataValid → d'.rCnt.toNat ≤ d'.rCtx.len.toNat ∧
        d'.rAddr = beatAddr d'.rCtx d'.rCnt.toNat) := by
  have hread : (m.next i.io d.ioIn).reading = readNext m.reading i.io d.ioIn := rfl
  rw [hread, h.reading, hd]
  cases hs : d.rState with
  | idle =>
      cases ha : arFire i.io d.ioIn with
      | false => simp [readNext, next, hs, ha]
      | true => simp [readNext, next, rNextAddr, hs, ha, beatAddr_zero]
  | dataValid =>
      have ha : arFire i.io d.ioIn = false := by simp [arFire, ioIn, hs]
      have haddr := h.rAddr hs
      have hle := h.rCnt hs
      cases hf : rFire i.io d.ioIn with
      | false => simp [readNext, next, rNextAddr, hs, ha, hf, rLastFire, haddr, hle]
      | true =>
          have hlast : d.ioIn.r.bits.last = decide (d.rCnt = d.rCtx.len) := rfl
          by_cases hl : d.rCnt = d.rCtx.len
          · simp [readNext, next, hs, ha, hf, rLastFire, hlast, hl]
          · obtain ⟨hsucc, hle'⟩ := h.succ_rCnt hs hl
            have hst : (d.next i).rState = .dataValid := by
              simp [next, hs, hf, rLastFire, hlast, hl]
            have hctx : (d.next i).rCtx = d.rCtx := by simp [next, ha]
            have hcnt : (d.next i).rCnt = d.rCnt + 1 := by simp [next, ha, hf]
            have hnext : (d.next i).rAddr = beatAddr d.rCtx (d.rCnt.toNat + 1) := by
              rw [← computeNextAddr_beatAddr, ← haddr]
              simp [next, rNextAddr, ha, hf]
            rw [hst, hctx, hcnt, hsucc, hnext]
            refine ⟨?_, fun _ => ⟨hle', rfl⟩⟩
            simp [readNext, hf, hlast, hl]

/-- The registers of a write after a cycle. -/
theorem Track.next_writes (h : Track d m) (hw : wLastFire i.io d.ioIn = wFire i.io d.ioIn)
    {d' : DPICMem} (hd : d' = d.next i) :
    (m.next i.io d.ioIn).writing = (if d'.wState = .idle then none else some d'.wCtx.addr) ∧
      (d'.wState = .data → d'.wAddr = d'.wCtx.addr) ∧
      (m.next i.io d.ioIn).written = decide (d'.wState = .resp) := by
  have hwriting := h.writing
  have hwritten := h.written
  rw [hd]
  cases hs : d.wState with
  | idle =>
      have hf : wFire i.io d.ioIn = false := by simp [wFire, ioIn, hs]
      have hb : bFire i.io d.ioIn = false := by simp [bFire, ioIn, hs]
      rw [hs] at hwriting hwritten
      cases ha : awFire i.io d.ioIn <;>
        simp [Memory.next, next, wNextAddr, hs, hw, ha, hf, hb, hwriting, hwritten]
  | data =>
      have ha : awFire i.io d.ioIn = false := by simp [awFire, ioIn, hs]
      have hb : bFire i.io d.ioIn = false := by simp [bFire, ioIn, hs]
      have haddr := h.wAddr hs
      rw [hs] at hwriting hwritten
      cases hf : wFire i.io d.ioIn <;>
        simp [Memory.next, next, wNextAddr, hs, hw, ha, hf, hb, hwriting, hwritten, haddr]
  | resp =>
      have ha : awFire i.io d.ioIn = false := by simp [awFire, ioIn, hs]
      have hf : wFire i.io d.ioIn = false := by simp [wFire, ioIn, hs]
      rw [hs] at hwriting hwritten
      cases hb : bFire i.io d.ioIn <;>
        simp [Memory.next, next, wNextAddr, hs, hw, ha, hf, hb, hwriting, hwritten]

/-- **The step.** -/
theorem Track.next (h : Track d m) (hw : wLastFire i.io d.ioIn = wFire i.io d.ioIn) :
    Track (d.next i) (m.next i.io d.ioIn) := by
  obtain ⟨hreading, hbusy⟩ := h.next_reads (i := i) rfl
  obtain ⟨hwriting, haddr, hwritten⟩ := h.next_writes hw rfl
  exact ⟨hreading, fun hs => (hbusy hs).1, fun hs => (hbusy hs).2, hwriting, haddr, hwritten⟩

/-- The state of a write is its phase. -/
theorem Track.phase (h : Track d m) : (m.phase = .idle → d.wState = .idle) ∧
    (m.phase = .waitData → d.wState = .data) ∧ (m.phase = .resp → d.wState = .resp) := by
  rw [Memory.phase, h.written, h.writing]
  cases d.wState <;> simp

/-- The memory follows the protocol, and what it offers is what it has read. -/
theorem Track.answersFrom (h : Track d m) {rd : Word → Word} {o : Out}
    (hout : d.rState = .dataValid → d.memReadOut = rd d.rAddr) : m.AnswersFrom rd o d.ioIn where
  bursts hv := by
    have hs : d.rState = .dataValid := of_decide_eq_true hv
    have hlast : d.ioIn.r.bits.last = decide (d.rCnt = d.rCtx.len) := rfl
    refine ⟨⟨d.rCtx, d.rCnt.toNat⟩, by rw [h.reading, if_pos hs], ?_⟩
    rw [hlast, decide_eq_true_iff, BitVec.toNat_inj]
  reads hv b hb := by
    have hs : d.rState = .dataValid := of_decide_eq_true hv
    rw [h.reading, if_pos hs, Option.some_inj] at hb
    subst hb
    refine ⟨rfl, ?_⟩
    rw [← h.rAddr hs, ← hout hs]
    rfl
  dataAfterAddress hf := by
    have hs : d.wState = .data := of_decide_eq_true (Bool.and_eq_true_iff.mp hf).2
    exact .inl (by simp [h.writing, hs])
  respAfterData hv := by
    have hs : d.wState = .resp := of_decide_eq_true hv
    simp [h.writing, h.written, hs]
  respOkay _ := rfl

end DPICMem

/-! ## The areas -/

/-- The word around the address is in a memory of the simulator, and the clock is not there. -/
def InAreas (a : Word) : Prop :=
  (DUTMemory.inSimMem (wordAlign a) && !inClock (wordAlign a)) = true

/-- The simulated memory reads the words of its areas. -/
theorem pmemRead_of_inAreas {a : Word} (h : InAreas a) (clock : Word → Word) (b : Bytes) :
    pmemRead clock b a = some (alignedWord b a) := (pmem clock).read_eq b a h

/-- The simulated memory writes the bytes of its areas. -/
theorem pmemWrite_of_inAreas {a : Word} (h : InAreas a) (b : Bytes) (w : WriteDataChannel) :
    pmemWrite b a w.data (w.strb.setWidth 8) = some (StoredBeat.apply (a, w) b) := by
  have hw : Option.map id (pmemWrite b a w.data (w.strb.setWidth 8)) = _ :=
    (pmem fun _ => 0).write_eq b a w.data w.strb h
  rw [Option.map_id] at hw
  exact hw

/-- The areas are in the simulated memory. -/
theorem inSimMem_of_inAreas {a : Word} (h : InAreas a) :
    DUTMemory.inSimMem (wordAlign a) = true := (Bool.and_eq_true_iff.mp h).1

/-- `pmem_read` aborts outside the areas only. -/
theorem inSimMem_of_pmemRead {clock : Word → Word} {b : Bytes} {a : Word}
    (h : pmemRead clock b a = none) : DUTMemory.inSimMem (wordAlign a) = false := by
  simp only [pmemRead, DUTMemory.read] at h
  split_ifs at h with hclock hin
  simpa using hin

/-- The areas are made of whole lines. -/
theorem inSimMem_block (t : BitVec 26) (k o o' : BitVec 2) :
    DUTMemory.inSimMem (wordAlign (wordAddr t k o)) =
      DUTMemory.inSimMem (wordAlign (wordAddr t k o')) := by
  have harea : ∀ base size : Word, base.toNat % 16 = 0 → size.toNat % 16 = 0 →
      DUTMemory.inArea base size (wordAlign (wordAddr t k o)) =
        DUTMemory.inArea base size (wordAlign (wordAddr t k o')) := by
    intro base size hbase hsize
    have ho := o.isLt
    have ho' := o'.isLt
    have hb := base.isLt
    rw [Bool.eq_iff_iff]
    simp only [DUTMemory.inArea, BitVec.ult, decide_eq_true_eq, BitVec.toNat_sub, toNat_wordAlign,
      toNat_wordAddr]
    omega
  simp only [DUTMemory.inSimMem, DUTMemory.inFlash, DUTMemory.inMrom, DUTMemory.inPsram,
    DUTMemory.inSdram]
  rw [harea _ _ rfl rfl, harea _ _ rfl rfl, harea _ _ rfl rfl, harea _ _ rfl rfl]

/-! ## The design -/

/-- The registers of the core and of the memory, and what `DUTMemory` holds. -/
structure TopWithoutSoC where
  core : Core
  mem : DPICMem
  bytes : Bytes

/-- What the calls of one clock edge depend on: the time of day, and which of them is the first. -/
structure DPIEdge where
  clock : Word → Word
  readFirst : Bool

namespace TopWithoutSoC

/-- What reset fixes, with the image `init` in the memory. -/
structure IsReset (init : Bytes) (s : TopWithoutSoC) : Prop where
  core : s.core.IsReset
  mem : s.mem.IsReset
  bytes : s.bytes = init

variable (e : DPIEdge) (s : TopWithoutSoC)

/-- The inputs of the memory (`core.io.master <> mem.io`), `out` being what `pmem_read` returns.
No signal of the cycle depends on it. -/
def memIn (out : Word) : DPICMemIn := ⟨s.core.master s.mem.ioIn, fun _ => out⟩

/-- The contents after the call of `pmem_write`, if it is made. -/
def written : Option Bytes :=
  (s.mem.pmemWrite (s.memIn 0)).elim (some s.bytes) fun w =>
    pmemWrite s.bytes w.waddr w.wdata w.wmask

/-- What is loaded into `mem_read.io.out`: the word of `pmem_read` where it is enabled, else 0. -/
def readOut (seen : Bytes) : Option Word :=
  if s.mem.memReadEn (s.memIn 0) then pmemRead e.clock seen (s.mem.rNextAddr (s.memIn 0))
  else some 0

/-- One clock edge; no result stands for `out_of_bound_abort`, which ends the simulation. -/
def next : Option TopWithoutSoC := do
  let written ← s.written
  let out ← s.readOut e (if e.readFirst then s.bytes else written)
  return ⟨s.core.next s.mem.ioIn, s.mem.next (s.memIn out), written⟩

/-- The state after `t` cycles and the events of the core so far, if the simulation gets there. -/
def run (e : ℕ → DPIEdge) (s : TopWithoutSoC) : ℕ → Option (TopWithoutSoC × List Event)
  | 0 => some (s, [])
  | t + 1 => do
      let (s, log) ← run e s t
      let s' ← s.next (e t)
      return (s', log ++ s.core.emit s.mem.ioIn)

/-- What an edge with a next state does. -/
theorem next_eq_some {e : DPIEdge} {s s' : TopWithoutSoC} (h : s.next e = some s') :
    ∃ written out, s.written = some written ∧
      s.readOut e (if e.readFirst then s.bytes else written) = some out ∧
      s' = ⟨s.core.next s.mem.ioIn, s.mem.next (s.memIn out), written⟩ := by
  obtain ⟨written, hwritten, h⟩ := Option.bind_eq_some_iff.mp h
  obtain ⟨out, hout, h⟩ := Option.bind_eq_some_iff.mp h
  exact ⟨written, out, hwritten, hout, (Option.some_inj.mp h).symm⟩

/-- Where `pmem_write` does not abort, it is `pmem_read` that does. -/
theorem readOut_of_next_eq_none {e : DPIEdge} {s : TopWithoutSoC} {b : Bytes}
    (hwritten : s.written = some b) (h : s.next e = none) : ∃ seen, s.readOut e seen = none := by
  refine ⟨if e.readFirst then s.bytes else b, ?_⟩
  cases hout : s.readOut e (if e.readFirst then s.bytes else b) with
  | none => rfl
  | some out => simp [next, hwritten, hout] at h

/-- The simulation gets one cycle further if it gets there and the edge has a next state. -/
theorem run_succ_eq_some {e : ℕ → DPIEdge} {s s' : TopWithoutSoC} {t : ℕ}
    {log' : List Event} : run e s (t + 1) = some (s', log') ↔
      ∃ u log, run e s t = some (u, log) ∧ u.next (e t) = some s' ∧
        log' = log ++ u.core.emit u.mem.ioIn := by
  constructor
  · intro h
    obtain ⟨⟨u, log⟩, hu, h⟩ := Option.bind_eq_some_iff.mp h
    obtain ⟨u', hu', h⟩ := Option.bind_eq_some_iff.mp h
    obtain ⟨rfl, rfl⟩ := Prod.mk.inj (Option.some_inj.mp h)
    exact ⟨u, log, hu, hu', rfl⟩
  · rintro ⟨u, log, hu, hu', rfl⟩
    exact Option.bind_eq_some_iff.mpr ⟨_, hu, Option.bind_eq_some_iff.mpr ⟨_, hu', rfl⟩⟩

/-! ## The reference model -/

variable {init : Bytes} {p : Program init} {e : DPIEdge} {s s' : TopWithoutSoC}
  {log : List Event} {m : Memory} {n : ℕ} {rd : Word → Word}

/-- The design simulates the reference model: `m` is what has gone over the port, `n` the number of
retired instructions and `rd` the words that `pmem_read` returned.  Of these the words of the program
and of the load under way are right. -/
structure Inv (p : Program init) (s : TopWithoutSoC) (log : List Event) (m : Memory) (n : ℕ)
    (rd : Word → Word) : Prop where
  sim : Core.Sim p s.core m n
  track : s.mem.Track m
  bytes : s.bytes = m.bytes init
  log_eq : log = refLog (fun k => (reference init k).events) n ++
    (reference init n).storeEvents.take s.core.storeProgress
  out : s.mem.rState = .dataValid → s.mem.memReadOut = rd s.mem.rAddr
  code : ∀ a, p.code.Runs a → rd a = p.code.word a
  load : s.core.lsu.state = .rWaitMem →
    rd s.core.lsuIn.bits.lsuAddr = alignedWord (m.bytes init) s.core.lsuIn.bits.lsuAddr

/-- After reset nothing has happened. -/
theorem Inv.of_reset (p : Program init) (h : s.IsReset init) :
    Inv p s [] {} 0 (alignedWord init) := by
  have hsim := Core.Sim.of_reset p h.core
  refine ⟨hsim, DPICMem.Track.of_reset h.mem, h.bytes, ?_, fun hs => ?_,
    fun a ha => hsim.mem_word ha, fun _ => rfl⟩
  · have hzero : s.core.storeProgress = 0 := by
      simp [Core.storeProgress, Core.accessed, h.core.wbuIn, h.core.lsu.state]
    rw [hzero]
    rfl
  · rw [h.mem.rState] at hs
    exact absurd hs (by decide)

/-- The memory answers the core. -/
theorem Inv.answersFrom (h : Inv p s log m n rd) :
    m.AnswersFrom rd (s.core.master s.mem.ioIn) s.mem.ioIn := h.track.answersFrom h.out

/-- The data of the program is in the areas. -/
theorem inAreas_of_accesses {c : Core} (hp : ∀ n, (reference init n).Supported InAreas)
    (h : Core.Sim p c m n) (hacc : Core.Accesses c) : InAreas c.lsuIn.bits.lsuAddr := by
  obtain ⟨hexec, -⟩ := h.lsuIn_of_busy hacc.1
  obtain ⟨_, -, -, hr⟩ := hexec.access (hp n) (h.reqOp_of_accesses hacc)
  exact hr

/-- The core and the port in the next cycle, whatever `pmem_read` does at the edge. -/
theorem Inv.sim_next (h : Inv p s log m n rd) :
    Core.Sim p (s.core.next s.mem.ioIn) (m.next (s.core.master s.mem.ioIn) s.mem.ioIn)
      (s.core.lsuIndex n) := h.sim.next_from h.answersFrom h.code h.load

/-- The slave follows the memory of the core. -/
theorem Inv.track_next (h : Inv p s log m n rd) (out : Word) :
    (s.mem.next (s.memIn out)).Track (m.next (s.core.master s.mem.ioIn) s.mem.ioIn) :=
  h.track.next (Core.slave_wLastFire 0)

/-- The memory takes the data of a store after its address, and for that address. -/
theorem Inv.wAddr_eq (h : Inv p s log m n rd)
    (hw : wFire (s.core.masters 0) (s.core.lsuMem s.mem.ioIn) = true) :
    s.mem.wAddr = s.core.lsuIn.bits.lsuAddr := by
  have hsig : wFire (s.core.master s.mem.ioIn) s.mem.ioIn =
      wFire (s.core.masters 0) (s.core.lsuMem s.mem.ioIn) :=
    h.sim.bus.write_signal h.sim.routed writeSignal_wFire
  have hdata : s.mem.wState = .data :=
    of_decide_eq_true (Bool.and_eq_true_iff.mp (hsig.trans hw)).2
  have hwriting : m.writing = some s.mem.wAddr := by
    rw [h.track.writing, hdata, h.track.wAddr hdata]
    rfl
  have hlsu := h.sim.bus.address
  rw [hwriting] at hlsu
  rcases Core.lsu_state_of_wFire hw with hst | hst
  · -- the memory takes no data before the address
    simp [Core.writing, hst] at hlsu
  · simpa [Core.writing, hst] using hlsu

/-- The contents follow the stores of the core; `pmem_write` never aborts. -/
theorem Inv.written_eq (h : Inv p s log m n rd) (hp : ∀ n, (reference init n).Supported InAreas) :
    s.written = some ((m.next (s.core.master s.mem.ioIn) s.mem.ioIn).bytes init) := by
  have hsig : wFire (s.core.master s.mem.ioIn) s.mem.ioIn =
      wFire (s.core.masters 0) (s.core.lsuMem s.mem.ioIn) :=
    h.sim.bus.write_signal h.sim.routed writeSignal_wFire
  have hcall := DPICMem.pmemWrite_eq s.mem (s.memIn 0)
  rw [show wFire (s.memIn 0).io s.mem.ioIn = _ from hsig] at hcall
  rw [written]
  cases hw : wFire (s.core.masters 0) (s.core.lsuMem s.mem.ioIn) with
  | false =>
      rw [hw, if_neg Bool.false_ne_true] at hcall
      rw [h.sim.bytes_of_not_wFire hw, hcall, ← h.bytes]
      rfl
  | true =>
      rw [hw, if_pos rfl] at hcall
      have hacc : Core.Accesses s.core := by
        rcases Core.lsu_state_of_wFire hw with hst | hst <;> simp [Core.Accesses, hst]
      have hstores := h.sim.bus.stores_next (i := s.mem.ioIn) h.sim.routed
      rw [if_pos hw] at hstores
      have hbits := (h.sim.bus.write_payload h.sim.routed writeSignal_wFire hw).2
      have hio : (s.memIn 0).io = s.core.master s.mem.ioIn := rfl
      rw [h.wAddr_eq hw, hio, hbits] at hcall
      rw [hcall]
      refine (pmemWrite_of_inAreas (inAreas_of_accesses hp h.sim hacc) _ _).trans
        (congrArg some (funext fun a => ?_))
      rw [h.bytes]
      exact (Memory.bytes_cons init _ hstores a).symm

/-- A load keeps the contents. -/
theorem Inv.bytes_of_load (h : Inv p s log m n rd)
    (hload : (s.core.next s.mem.ioIn).lsu.state = .rWaitMem) :
    (m.next (s.core.master s.mem.ioIn) s.mem.ioIn).bytes init = m.bytes init := by
  rw [Core.next_lsu_rWaitMem] at hload
  refine h.sim.bytes_of_not_writing ?_
  rcases hload with har | ⟨hst, -⟩
  · simp [Core.lsu_state_of_arFire har]
  · simp [hst]

/-- **The step**, whatever the order of the calls. -/
theorem Inv.next (h : Inv p s log m n rd) (hp : ∀ n, (reference init n).Supported InAreas)
    (hnext : s.next e = some s') : ∃ rd', Inv p s' (log ++ s.core.emit s.mem.ioIn)
      (m.next (s.core.master s.mem.ioIn) s.mem.ioIn) (s.core.lsuIndex n) rd' := by
  obtain ⟨b, out, hb, hout, rfl⟩ := next_eq_some hnext
  rw [h.written_eq hp, Option.some_inj] at hb
  subst hb
  -- the words that `pmem_read` returns at this edge
  obtain ⟨seen, hseen, hread⟩ : ∃ seen, (seen = m.bytes init ∨
      seen = (m.next (s.core.master s.mem.ioIn) s.mem.ioIn).bytes init) ∧
      s.readOut e seen = some out := by
    refine ⟨_, ?_, hout⟩
    cases e.readFirst with
    | false => exact .inr rfl
    | true => exact .inl h.bytes
  have hsim := h.sim_next
  have hword : ∀ a, InAreas a → (pmemRead e.clock seen a).getD 0 = alignedWord seen a :=
    fun a ha => by rw [pmemRead_of_inAreas ha]; rfl
  refine ⟨fun a => (pmemRead e.clock seen a).getD 0, hsim, h.track_next out, rfl, ?_,
    fun hs => ?_, fun a ha => ?_, fun hload => ?_⟩
  · rw [h.log_eq]
    exact h.sim.log_from h.answersFrom h.load
  · have hen := (DPICMem.memReadEn_iff s.mem (s.memIn out)).mpr hs
    have hcall : s.readOut e seen = pmemRead e.clock seen (s.mem.rNextAddr (s.memIn 0)) :=
      if_pos hen
    rw [hcall] at hread
    have hreg : (s.mem.next (s.memIn out)).memReadOut = out := if_pos hen
    have haddr : (s.mem.next (s.memIn out)).rAddr = s.mem.rNextAddr (s.memIn 0) := rfl
    rw [hreg, haddr, hread]
    rfl
  · have hin : InAreas a := by
      obtain ⟨k, rfl⟩ := ha
      exact (hp k).pcRouted
    rw [hword a hin]
    rcases hseen with rfl | rfl
    · exact h.sim.mem_word ha
    · exact hsim.mem_word ha
  · have hst : (s.core.next s.mem.ioIn).lsu.state = .rWaitMem := hload
    have hacc : Core.Accesses (s.core.next s.mem.ioIn) := by simp [Core.Accesses, hst]
    rw [hword _ (inAreas_of_accesses hp hsim hacc)]
    rcases hseen with rfl | rfl
    · rw [h.bytes_of_load hload]
    · rfl

/-! ## The abort -/

/-- The simulation ends in `pmem_read` outside the areas, at a word of the line that the instruction
cache is filling, of which the program executes no word.  Such a line is fetched speculatively. -/
structure PrefetchAborts (p : Program init) (e : DPIEdge) (s : TopWithoutSoC) : Prop where
  aborts : s.next e = none
  reads : s.mem.memReadEn (s.memIn 0) = true
  outside : DUTMemory.inSimMem (wordAlign (s.mem.rNextAddr (s.memIn 0))) = false
  fills : ∃ k, s.mem.rNextAddr (s.memIn 0) =
    wordAddr s.core.ifu.icache.fillTag s.core.ifu.icache.fillIndex k
  unused : ¬ p.code.Block s.core.ifu.icache.fillTag s.core.ifu.icache.fillIndex

/-- What `pmem_read` is called for: the load under way, or the line the instruction cache fills. -/
theorem Inv.called (h : Inv p s log m n rd) (hp : ∀ n, (reference init n).Supported InAreas)
    (hen : s.mem.memReadEn (s.memIn 0) = true) : InAreas (s.mem.rNextAddr (s.memIn 0)) ∨
      ∃ k, s.mem.rNextAddr (s.memIn 0) =
        wordAddr s.core.ifu.icache.fillTag s.core.ifu.icache.fillIndex k := by
  have hsim := h.sim_next
  have htrack := h.track_next 0
  have hst := (DPICMem.memReadEn_iff s.mem (s.memIn 0)).mp hen
  have haddr : s.mem.rNextAddr (s.memIn 0) = (s.mem.next (s.memIn 0)).rAddr := rfl
  rw [haddr, htrack.rAddr hst]
  have hburst := hsim.bus.burst
  rw [htrack.reading, if_pos hst] at hburst
  split_ifs at hburst with hreach
  generalize (s.core.next s.mem.ioIn).bus.readPath.owner = k at hburst
  revert k hburst
  refine Fin.forall_fin_two.mpr ⟨fun hburst => .inl ?_, fun hburst => .inr ?_⟩
  · obtain ⟨hload, hb⟩ := Option.ite_none_right_eq_some.mp hburst.symm
    obtain ⟨har, hcnt⟩ := ReadBurst.mk.inj (Option.some_inj.mp hb)
    rw [← har, ← hcnt, DPICMem.beatAddr_zero]
    exact inAreas_of_accesses hp hsim (by simp [Core.Accesses, hload])
  · obtain ⟨hfill, hb⟩ := Option.ite_none_right_eq_some.mp hburst.symm
    obtain ⟨har, hcnt⟩ := ReadBurst.mk.inj (Option.some_inj.mp hb)
    refine ⟨(s.core.next s.mem.ioIn).ifu.icache.fillCnt, ?_⟩
    have hquiet : s.core.ifu.icache.reqFire
        (s.core.ifu.icacheIn (s.core.ifuIn s.mem.ioIn)) = false := by
      apply ICache.reqFire_eq_false
      rcases ICache.state_of_next_waitMem hfill with hs | hs <;> simp [hs]
    rw [← har, ← hcnt, ← ICache.fillTag_next hquiet, ← ICache.fillIndex_next hquiet]
    exact beatAddr_block _ _ _ rfl rfl rfl

/-- **An edge without a next state** is one where a line is fetched that the program does not use. -/
theorem Inv.aborts (h : Inv p s log m n rd) (hp : ∀ n, (reference init n).Supported InAreas)
    (hnone : s.next e = none) : PrefetchAborts p e s := by
  obtain ⟨seen, hread⟩ := readOut_of_next_eq_none (h.written_eq hp) hnone
  rw [readOut] at hread
  split_ifs at hread with hen
  have hout := inSimMem_of_pmemRead hread
  rcases h.called hp hen with hin | ⟨k, hk⟩
  · rw [inSimMem_of_inAreas hin] at hout
    cases hout
  · refine ⟨hnone, hen, hout, ⟨k, hk⟩, ?_⟩
    rintro ⟨o, j, ho⟩
    have hin := inSimMem_of_inAreas (hp j).pcRouted
    rw [ho, inSimMem_block _ _ o k, ← hk, hout] at hin
    cases hin

/-! ## Whole runs -/

variable {s₀ : TopWithoutSoC} {es : ℕ → DPIEdge} {t : ℕ}

/-- The invariant holds in every run that goes on. -/
theorem inv (p : Program init) (hp : ∀ n, (reference init n).Supported InAreas)
    (h₀ : s₀.IsReset init) (hrun : run es s₀ t = some (s, log)) :
    ∃ m n rd, Inv p s log m n rd := by
  induction t generalizing s log with
  | zero =>
      obtain ⟨rfl, rfl⟩ := Prod.mk.inj (Option.some_inj.mp hrun)
      exact ⟨_, _, _, Inv.of_reset p h₀⟩
  | succ t ih =>
      obtain ⟨u, log', hu, hnext, rfl⟩ := run_succ_eq_some.mp hrun
      obtain ⟨m, n, rd, h⟩ := ih hu
      obtain ⟨rd', h'⟩ := h.next hp hnext
      exact ⟨_, _, rd', h'⟩

/-- What has happened is a prefix of what the reference model does. -/
theorem Inv.log_prefix (h : Inv p s log m n rd) :
    ∃ n, log <+: refLog (fun k => (reference init k).events) n := by
  refine ⟨n + 1, ?_⟩
  rw [h.log_eq, refLog_succ]
  exact (List.prefix_append_right_inj _).mpr ((List.take_prefix _ _).trans ⟨_, rfl⟩)

/-! ### A simulation that does not stop -/

/-- The states of a simulation that does not stop. -/
structure Endless (es : ℕ → DPIEdge) (s₀ : TopWithoutSoC) where
  st : ℕ → TopWithoutSoC
  log : ℕ → List Event
  run_eq : ∀ t, run es s₀ t = some (st t, log t)

/-- The simulation stops at an edge, or it does not. -/
theorem run_cases (es : ℕ → DPIEdge) (s₀ : TopWithoutSoC) :
    (∃ t s log, run es s₀ t = some (s, log) ∧ s.next (es t) = none) ∨
      Nonempty (Endless es s₀) := by
  by_cases habort : ∃ t s log, run es s₀ t = some (s, log) ∧ s.next (es t) = none
  · exact .inl habort
  have hall : ∀ t, ∃ s log, run es s₀ t = some (s, log) := by
    intro t
    induction t with
    | zero => exact ⟨s₀, [], rfl⟩
    | succ t ih =>
        obtain ⟨s, log, hs⟩ := ih
        cases hnext : s.next (es t) with
        | none => exact absurd ⟨t, s, log, hs, hnext⟩ habort
        | some s' => exact ⟨s', _, run_succ_eq_some.mpr ⟨s, log, hs, hnext, rfl⟩⟩
  choose st log hrun using hall
  exact .inr ⟨⟨st, log, hrun⟩⟩

namespace Endless

variable (r : Endless es s₀)

theorem st_zero : r.st 0 = s₀ :=
  (Prod.mk.inj (Option.some_inj.mp (r.run_eq 0))).1.symm

/-- Every step is one of the machine. -/
theorem step (t : ℕ) : (r.st t).next (es t) = some (r.st (t + 1)) ∧
    r.log (t + 1) = r.log t ++ (r.st t).core.emit (r.st t).mem.ioIn := by
  obtain ⟨u, log, hu, hnext, hlog⟩ := run_succ_eq_some.mp (r.run_eq (t + 1))
  rw [r.run_eq t, Option.some_inj, Prod.mk.injEq] at hu
  obtain ⟨rfl, rfl⟩ := hu
  exact ⟨hnext, hlog⟩

/-- The core in it. -/
def core (h₀ : s₀.IsReset init) : Core.machine.Run where
  st t := (r.st t).core
  inp t := (r.st t).mem.ioIn
  start := by
    rw [r.st_zero]
    exact h₀.core
  step t := by
    obtain ⟨_, _, -, -, heq⟩ := next_eq_some (r.step t).1
    rw [heq]
    rfl

variable (h₀ : s₀.IsReset init)

/-- The run is one of the core alone, on its memory. -/
theorem inv (p : Program init) (hp : ∀ n, (reference init n).Supported InAreas) (t : ℕ) :
    ∃ rd, Inv p (r.st t) (r.log t) (Core.memory (r.core h₀) t) (Core.retired (r.core h₀) t) rd := by
  induction t with
  | zero =>
      have hlog : r.log 0 = [] := (Prod.mk.inj (Option.some_inj.mp (r.run_eq 0))).2.symm
      rw [r.st_zero, hlog]
      exact ⟨_, Inv.of_reset p h₀⟩
  | succ t ih =>
      obtain ⟨rd, h⟩ := ih
      obtain ⟨hnext, hlog⟩ := r.step t
      rw [hlog]
      exact h.next hp hnext

/-- The two have one log. -/
theorem log_eq (t : ℕ) : (r.core h₀).log Core.emit t = r.log t := by
  induction t with
  | zero => exact (Prod.mk.inj (Option.some_inj.mp (r.run_eq 0))).2
  | succ t ih =>
      rw [Machine.Run.log_succ, ih, (r.step t).2]
      rfl

/-- The core simulates the reference here too. -/
theorem simulates (p : Program init) (hp : ∀ n, (reference init n).Supported InAreas) :
    Core.Simulates p (r.core h₀) := by
  refine ⟨fun t => ?_, fun t => ?_⟩
  · obtain ⟨rd, h⟩ := r.inv h₀ p hp t
    exact h.sim
  · obtain ⟨rd, h⟩ := r.inv h₀ p hp t
    rw [r.log_eq]
    exact h.log_eq

/-- The memory never refuses what it can take. -/
theorem responds (p : Program init) (hp : ∀ n, (reference init n).Supported InAreas) :
    Core.Responds (r.core h₀) := by
  have hinv := r.inv h₀ p hp
  have hc : ∀ t, (Core.memory (r.core h₀) t).Complies ((r.st t).core.master (r.st t).mem.ioIn)
      (r.st t).mem.ioIn := by
    intro t
    obtain ⟨rd, h⟩ := hinv t
    exact ⟨h.answersFrom.bursts, h.answersFrom.dataAfterAddress, h.answersFrom.respAfterData⟩
  have htrack : ∀ t, (r.st t).mem.Track (Core.memory (r.core h₀) t) := fun t =>
    let ⟨_, h⟩ := hinv t
    h.track
  have hport := Core.portTrack (r := r.core h₀) hc
  refine ⟨hc, Recurs.of_forall fun t har => ?_, Recurs.of_forall fun t hread => ?_,
    Recurs.of_forall fun t haw => ?_, Recurs.of_forall fun t hphase _ => ?_,
    Recurs.of_forall fun t hphase => ?_⟩
  · have hnone := (hport t).reading_of_arValid har
    rw [(htrack t).reading] at hnone
    refine decide_eq_true ?_
    cases hs : (r.st t).mem.rState with
    | idle => rfl
    | dataValid => simp [hs] at hnone
  · rw [(htrack t).reading] at hread
    refine decide_eq_true ?_
    by_contra hs
    exact hread (if_neg hs)
  · exact decide_eq_true ((htrack t).phase.1 ((hport t).phase_of_awValid haw))
  · exact decide_eq_true ((htrack t).phase.2.1 hphase)
  · exact decide_eq_true ((htrack t).phase.2.2 hphase)

end Endless

/-! ### The result -/

/-- The design is where the reference model is after `n` instructions. -/
structure After (init : Bytes) (n : ℕ) (s : TopWithoutSoC) (log : List Event) : Prop where
  log_eq : log = refLog (fun k => (reference init k).events) n
  regs : ∀ rs : BitVec 5, rs.toNat < 16 → s.core.regFile.read rs = (reference init n).gpr rs
  bytes : s.bytes = (reference init n).mem

/-- **The design executes every program** whose code and data are in the areas: what happens is at
every time a prefix of what the reference model does, and unless the simulation ends in the fetch
of a line outside the areas that the program does not use, it comes to every state of the model. -/
theorem completes (p : Program init) (hp : ∀ n, (reference init n).Supported InAreas)
    (h₀ : s₀.IsReset init) (es : ℕ → DPIEdge) :
    (∀ t s log, run es s₀ t = some (s, log) →
      ∃ n, log <+: refLog (fun k => (reference init k).events) n) ∧
    ((∃ t s log, run es s₀ t = some (s, log) ∧ PrefetchAborts p (es t) s) ∨
      ∀ n, ∃ t s log, run es s₀ t = some (s, log) ∧ After init n s log) := by
  constructor
  · intro t s log hrun
    obtain ⟨m, n, rd, h⟩ := inv p hp h₀ hrun
    exact h.log_prefix
  rcases run_cases es s₀ with ⟨t, s, log, hrun, hnone⟩ | ⟨⟨r⟩⟩
  · obtain ⟨m, n, rd, h⟩ := inv p hp h₀ hrun
    exact .inl ⟨t, s, log, hrun, h.aborts hp hnone⟩
  · refine .inr fun n => ?_
    obtain ⟨t, ht⟩ := (r.simulates h₀ p hp).reaches (r.responds h₀ p hp) n
    obtain ⟨rd, h⟩ := r.inv h₀ p hp t
    exact ⟨t, r.st t, r.log t, r.run_eq t, (r.log_eq h₀ t).symm.trans ht.log, ht.regs,
      h.bytes.trans ht.mem⟩

/-- The design after reset. -/
def fresh (init : Bytes) : TopWithoutSoC := ⟨Core.fresh, ⟨.idle, {}, 0, 0, 0, .idle, {}, 0⟩, init⟩

theorem fresh_isReset (init : Bytes) : (fresh init).IsReset init :=
  ⟨Core.fresh_isReset, ⟨rfl, rfl, rfl, rfl, rfl⟩, rfl⟩

/-- A thousand instructions of the loop of loads and stores, in the flash and the PSRAM. -/
theorem completes_storeLoop :
    (∃ t s log, run (fun _ => ⟨fun _ => 0, true⟩) (fresh (ofWords storeLoop)) t = some (s, log) ∧
      PrefetchAborts storeLoop_program ⟨fun _ => 0, true⟩ s) ∨
    ∃ t s log, run (fun _ => ⟨fun _ => 0, true⟩) (fresh (ofWords storeLoop)) t = some (s, log) ∧
      After (ofWords storeLoop) 1000 s log :=
  (completes storeLoop_program (fun n =>
    let h := storeLoop_looping n
    { h.supported with
      pcRouted := by
        rcases h.pc with hpc | hpc | hpc | hpc <;> rw [hpc, InAreas] <;> decide
      dataRouted := fun k hk => by
        rw [(h.access hk).2, InAreas]
        decide }) (fresh_isReset _) fun _ => ⟨fun _ => 0, true⟩).2.imp id fun h => h 1000

end TopWithoutSoC

end Bailuwan
