/-
# A memory that lags

A slave need not answer from the contents of the memory in the same cycle: `AnswersFrom` lets it
answer from any words.  It is enough for the simulation of the reference model that the words of
the program and those of its loads are the right ones (`Sim.next_from`), since other words of a
line are never executed.  A cycle with a wrong word differs from one with the right word in the
lines of the cache only (`next_withData`).
-/
import Bailuwan.CompleteFill
import Bailuwan.DPICMem
import Bailuwan.RetireLog

namespace Bailuwan

open Synchronous AXI4 BusPath Interconnect

/-! ## Another word on the read channel -/

/-- The slave's half of a port, with another word. -/
def AXI4.In.withData (i : In) (v : Word) : In :=
  { i with r := ⟨i.r.valid, { i.r.bits with data := v }⟩ }

namespace Core

variable (c : Core) (io : In) (v : Word)

/-- A core with other lines in the cache. -/
def withLines (d : BitVec 2 → BitVec 2 → Word) : Core :=
  { c with ifu := { c.ifu with icache := { c.ifu.icache with dataStorage := d } } }

/-- Another word on the read channel changes the word of a slave at most. -/
theorem slaveIn_withData : ∀ j : Fin 3, ∃ w,
    c.bus.slaveIn (c.busIn (io.withData v)) j = (c.bus.slaveIn (c.busIn io) j).withData w := by
  intro j
  rcases (show ∀ j : Fin 3, j = 0 ∨ j = 1 ∨ j = 2 by decide) j with rfl | rfl | rfl
  · exact ⟨v, rfl⟩
  · exact ⟨_, rfl⟩
  · exact ⟨_, rfl⟩

/-- Another word on the read channel changes the word at the arbiter at most. -/
theorem linkIn_withData : ∃ w,
    c.bus.linkIn (c.busIn (io.withData v)) = (c.bus.linkIn (c.busIn io)).withData w := by
  obtain ⟨w, hw⟩ := slaveIn_withData c io v c.bus.xbar.rOwnerId
  obtain ⟨w', hw'⟩ := slaveIn_withData c io v c.bus.xbar.wOwnerId
  simp only [slaveIn] at hw hw'
  simp only [linkIn, AXI4CrossBar.masterIn, hw, hw']
  cases c.bus.xbar.rState with
  | idle => exact ⟨0, rfl⟩
  | busy => exact ⟨w, rfl⟩

/-- Another word on the read channel changes the word of a master at most. -/
theorem masterIn_withData (k : Fin 2) : ∃ w,
    c.bus.masterIn (c.busIn (io.withData v)) k = (c.bus.masterIn (c.busIn io) k).withData w := by
  obtain ⟨w, hw⟩ := linkIn_withData c io v
  simp only [masterIn, hw, AXI4Arbiter.masterIn]
  by_cases hk : c.bus.arbiter.rState = .busy ∧ k = c.bus.arbiter.rOwnerId
  · simp only [if_pos hk]
    exact ⟨w, rfl⟩
  · simp only [if_neg hk]
    exact ⟨0, rfl⟩

/-- The word on the read channel does not matter to the interconnect. -/
theorem bus_next_withData : c.bus.next slavesMap (c.busIn (io.withData v)) =
    c.bus.next slavesMap (c.busIn io) := by
  obtain ⟨w, hw⟩ := masterIn_withData c io v c.bus.arbiter.rOwnerId
  obtain ⟨w', hw'⟩ := masterIn_withData c io v c.bus.arbiter.wOwnerId
  obtain ⟨x, hx⟩ := slaveIn_withData c io v c.bus.xbar.rOwnerId
  obtain ⟨x', hx'⟩ := slaveIn_withData c io v c.bus.xbar.wOwnerId
  simp only [masterIn] at hw hw'
  simp only [slaveIn] at hx hx'
  simp only [Interconnect.next, AXI4Arbiter.next, AXI4CrossBar.next, hw, hw', hx, hx']
  rfl

/-- **A word that the load and store unit does not take** ends up in the cache, if at all. -/
theorem next_withData {c : Core} {io : In} (v : Word)
    (hr : rFire (c.masters 0) (c.lsuMem io) = false) :
    c.next (io.withData v) =
      (c.next io).withLines (c.next (io.withData v)).ifu.icache.dataStorage := by
  obtain ⟨w, hw⟩ := masterIn_withData c io v 0
  obtain ⟨w', hw'⟩ := masterIn_withData c io v 1
  have hlsu : c.lsu.next c.lsuIn (c.lsuMem (io.withData v)) c.wbuFlush true =
      c.lsu.next c.lsuIn (c.lsuMem io) c.wbuFlush true := by
    have hr' : rFire (c.lsu.memOut c.lsuIn) ((c.lsuMem io).withData w) = false := hr
    have hr'' : rFire (c.lsu.memOut c.lsuIn) (c.lsuMem io) = false := hr
    rw [show c.lsuMem (io.withData v) = (c.lsuMem io).withData w from hw]
    unfold LSU.next
    rw [hr', hr'']
    rfl
  have hifu : c.ifuIn (io.withData v) =
      { c.ifuIn io with mem := (c.ifuMem io).withData w' } := by
    simp only [ifuIn, show c.ifuMem (io.withData v) = (c.ifuMem io).withData w' from hw']
  unfold next withLines
  rw [hlsu, hifu, bus_next_withData]
  rfl

end Core

/-! ## The contract -/

/-- What a slave does in one cycle that answers from the words `rd`. -/
structure Memory.AnswersFrom (rd : Word → Word) (m : Memory) (o : Out) (i : In) : Prop where
  bursts : ReadsInBursts m.reading i
  reads : ReadsFrom rd m.reading i
  dataAfterAddress : wFire o i = true → m.writing.isSome = true ∨ awFire o i = true
  respAfterData : i.b.valid = true → m.writing.isSome = true ∧ m.written = true
  respOkay : i.b.valid = true → i.b.bits.resp = AXIResp.OKAY

/-- With the words of the memory it is a memory. -/
theorem Memory.AnswersFrom.answers {rd : Word → Word} {m : Memory} {o : Out} {i : In}
    {init : Bytes} (h : m.AnswersFrom rd o i) {w : Word}
    (hw : ∀ b, m.reading = some b → w = alignedWord (m.bytes init) (beatAddr b.ar b.beat)) :
    m.Answers init o (i.withData w) where
  bursts := h.bursts
  reads hv b hb := ⟨(h.reads hv b hb).1, hw b hb⟩
  dataAfterAddress := h.dataAfterAddress
  respAfterData := h.respAfterData
  respOkay := h.respOkay

namespace Core

variable {init : Bytes} {p : Program init} {c : Core} {io : In} {m : Memory} {n : ℕ}
  {rd : Word → Word}

/-! ## The simulation -/

/-- A word that a master takes from the memory is one of the slave's words. -/
theorem data_from (h : BusTrack c m) (hans : m.AnswersFrom rd (c.master io) io) {k : Fin 2}
    (hr : rFire (c.masters k) (c.bus.masterIn (c.busIn io) k) = true)
    (hroute : ∀ a, current (c.reading k) (readReq (c.masters k)) = some a →
      candidate slavesMap a = 0) :
    ∃ b, c.bursts k = some b ∧
      (c.bus.masterIn (c.busIn io) k).r.bits.data = rd (beatAddr b.ar b.beat) ∧
      (c.bus.masterIn (c.busIn io) k).r = io.r ∧ m.reading = some b := by
  obtain ⟨a, hcur, hown, hj, hport⟩ := h.toRead.port hr
  rw [hroute a hcur] at hj hport
  have hio : (c.bus.masterIn (c.busIn io) k).r = io.r := hport
  have hv : io.r.valid = true := by
    rw [← hio]
    exact (Bool.and_eq_true_iff.mp hr).1
  obtain ⟨b, hb, -⟩ := hans.bursts hv
  have hburst := h.burst
  rw [if_pos hj, hown, hb] at hburst
  refine ⟨b, hburst.symm, ?_, hio, hb⟩
  rw [hio]
  exact (hans.reads hv b hb).2

/-- There is a right word, and without it only a line of the cache is different. -/
theorem Sim.exists_right (h : Sim p c m n) (hans : m.AnswersFrom rd (c.master io) io)
    (hload : c.lsu.state = .rWaitMem →
      rd c.lsuIn.bits.lsuAddr = alignedWord (m.bytes init) c.lsuIn.bits.lsuAddr) :
    ∃ v, m.Answers init (c.master io) (io.withData v) ∧
      c.next io = (c.next (io.withData v)).withLines (c.next io).ifu.icache.dataStorage := by
  cases hr : rFire (c.masters 0) (c.lsuMem io) with
  | true =>
      -- the word of a load is right
      have hst := reading_lsu hr
      obtain ⟨b, hb, hdata, hio, hm⟩ := data_from h.bus hans hr fun a ha => by
        obtain ⟨hacc, rfl⟩ := current_lsu_read ha
        exact h.routed hacc
      refine ⟨io.r.bits.data, hans.answers fun b' hb' => ?_, rfl⟩
      rw [hm, Option.some_inj] at hb'
      subst hb'
      have hburst : c.bursts 0 = some ⟨(c.lsu.memOut c.lsuIn).ar.bits, 0⟩ := if_pos hst
      rw [hburst, Option.some_inj] at hb
      rw [← hio, hdata, ← hb, DPICMem.beatAddr_zero]
      exact hload hst
  | false =>
      refine ⟨m.reading.elim 0 fun b => alignedWord (m.bytes init) (beatAddr b.ar b.beat),
        hans.answers fun b hb => by rw [hb]; rfl, ?_⟩
      generalize (m.reading.elim 0 fun b => alignedWord (m.bytes init) (beatAddr b.ar b.beat)) = v
      obtain ⟨w, hw⟩ := masterIn_withData c io v 0
      have hr' : rFire (c.masters 0) (c.lsuMem (io.withData v)) = false := by
        rw [show c.lsuMem (io.withData v) = (c.lsuMem io).withData w from hw]
        exact hr
      exact next_withData io.r.bits.data hr'

/-- The beats of the program are right. -/
theorem Sim.fetching_from (h : Sim p c m n) (hans : m.AnswersFrom rd (c.master io) io) {v : Word}
    (hright : m.Answers init (c.master io) (io.withData v))
    (hcode : ∀ a, p.code.Runs a → rd a = p.code.word a) : p.code.Fetching (c.next io).ifu := by
  obtain ⟨w, hw⟩ := masterIn_withData c io v 1
  have hfill : rFire (c.masters 1) (c.ifuMem io) = true →
      p.code.Block c.ifu.icache.fillTag c.ifu.icache.fillIndex →
      ((c.ifuMem io).r.bits.last = true ↔ c.ifu.icache.fillCnt = 3) ∧
        (c.ifuMem io).r.bits.resp = AXIResp.OKAY ∧ (c.ifuMem io).r.bits.data =
          rd (wordAddr c.ifu.icache.fillTag c.ifu.icache.fillIndex c.ifu.icache.fillCnt) := by
    intro hr hblock
    have hr' : rFire (c.masters 1) (c.ifuMem (io.withData v)) = true := by
      rw [show c.ifuMem (io.withData v) = (c.ifuMem io).withData w from hw]
      exact hr
    obtain ⟨hlast, hresp, -⟩ := h.bus.fill_beat hblock.routed hright hr'
    rw [show c.ifuMem (io.withData v) = (c.ifuMem io).withData w from hw] at hlast hresp
    refine ⟨hlast, hresp, ?_⟩
    obtain ⟨b, hb, hdata, -, -⟩ := data_from h.bus hans hr fun a ha => by
      rw [current_cache_read ha]
      exact hblock.routed
    have hst := c.ifu.icache.state_of_rFire (c.ifu.icacheIn (c.ifuIn io)) hr
    have hburst : c.bursts 1 =
        some ⟨c.ifu.icache.memOut.ar.bits, c.ifu.icache.fillCnt.toNat⟩ := if_pos hst
    rw [hburst, Option.some_inj] at hb
    have haddr := beatAddr_block c.ifu.icache.fillAddr c.ifu.icache.memOut.ar.bits
      c.ifu.icache.fillCnt rfl rfl rfl
    rw [show c.ifuMem io = c.bus.masterIn (c.busIn io) 1 from rfl, hdata, ← hb]
    exact congrArg rd haddr
  refine h.fetching.next h.bus.fillStart (fun hr hblock => ?_) (fun hr hblock => ?_) fun hen => ?_
  · obtain ⟨hlast, -, hdata⟩ := hfill hr hblock
    refine ⟨hlast, fun hruns => ?_⟩
    rw [← hcode _ hruns]
    exact hdata
  · exact (hfill hr hblock).2.1
  · have hfire : EXU.validBr c.exuIn.bits c.exuFire = true := hen
    simp only [EXU.validBr, Bool.and_eq_true, decide_eq_true_eq] at hfire
    have hissue := h.exuIn (Bool.and_eq_true_iff.mp hfire.1).1
    have hpc : (c.ifuIn io).btbW.pc = (reference init (c.exuIndex n)).pc := hissue.pc
    rw [hpc]
    refine ⟨p.runs _, ?_⟩
    have hword : p.code.word (reference init (c.exuIndex n)).pc =
      (reference init (c.exuIndex n)).inst := (p.inst_eq _).symm
    rw [Code.Branches, hword, ← hissue.brOp]
    exact hfire.2

/-- The lines matter to the code only. -/
theorem Sim.withLines (h : Sim p c m n) {d : BitVec 2 → BitVec 2 → Word}
    (hf : p.code.Fetching (c.withLines d).ifu) : Sim p (c.withLines d) m n where
  pipeline := ⟨h.pipeline.drained, h.pipeline.held, h.pipeline.serves⟩
  bus := ⟨h.bus.read, h.bus.write, h.bus.fillStart, h.bus.burst, h.bus.address, h.bus.data⟩
  fetching := hf
  iduIn := h.iduIn
  front := h.front
  exuIn := h.exuIn
  predicts := h.predicts
  lsuIn := h.lsuIn
  noFault := h.noFault
  loaded := h.loaded
  wbuIn := h.wbuIn
  regs := h.regs
  mem := h.mem

/-- **One cycle on a memory that lags.** -/
theorem Sim.next_from (h : Sim p c m n) (hans : m.AnswersFrom rd (c.master io) io)
    (hcode : ∀ a, p.code.Runs a → rd a = p.code.word a)
    (hload : c.lsu.state = .rWaitMem →
      rd c.lsuIn.bits.lsuAddr = alignedWord (m.bytes init) c.lsuIn.bits.lsuAddr) :
    Sim p (c.next io) (m.next (c.master io) io) (c.lsuIndex n) := by
  obtain ⟨v, hright, hnext⟩ := h.exists_right hans hload
  have hfetch := h.fetching_from hans hright hcode
  rw [hnext] at hfetch ⊢
  exact (h.next hright).withLines hfetch

/-- The log of such a cycle. -/
theorem Sim.log_from (h : Sim p c m n) (hans : m.AnswersFrom rd (c.master io) io)
    (hload : c.lsu.state = .rWaitMem →
      rd c.lsuIn.bits.lsuAddr = alignedWord (m.bytes init) c.lsuIn.bits.lsuAddr) :
    refLog (fun k => (reference init k).events) n ++
        (reference init n).storeEvents.take c.storeProgress ++ c.emit io =
      refLog (fun k => (reference init k).events) (c.lsuIndex n) ++
        (reference init (c.lsuIndex n)).storeEvents.take (c.next io).storeProgress := by
  obtain ⟨v, hright, hnext⟩ := h.exists_right hans hload
  obtain ⟨w, hw⟩ := masterIn_withData c io v 0
  have hemit : c.emit (io.withData v) = c.emit io := by
    unfold emit
    rw [show c.lsuMem (io.withData v) = (c.lsuMem io).withData w from hw]
    rfl
  have hright' : m.Answers init (c.master (io.withData v)) (io.withData v) := hright
  have hlog := h.log_next hright'
  rw [hemit] at hlog
  rw [hlog, hnext]
  rfl

end Core

end Bailuwan
