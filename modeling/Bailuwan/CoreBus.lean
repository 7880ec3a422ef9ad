/-
# The memory ports of the core

The load and store unit and the instruction cache share the interconnect.  `BusTrack`
ties the registers of both, those of the interconnect and the memory behind the external
port together: what a master has begun, the path that carries it and the burst or the
write the memory has accepted.

What follows from it is stated for each master alone: the answers the load and store
unit gets (`BusTrack.lsu_read`, `BusTrack.lsu_write`) and the beats of the cache
(`BusTrack.fill_beat`) are those of the memory.
-/
import Bailuwan.Memory
import Bailuwan.ICacheFill
import Bailuwan.Pipeline

namespace Bailuwan

open Synchronous AXI4 BusPath Interconnect

namespace Core

variable {c : Core} {io : In} {m : Memory} {init : Bytes} {b : Option ReadBurst}

/-! ## What the masters have begun -/

/-- The masters of the interconnect. -/
def masters (c : Core) : Fin 2 → Out := ![c.lsu.memOut c.lsuIn, c.ifu.memOut]

/-- The read each master has begun and not finished. -/
def reading (c : Core) : Fin 2 → List Word :=
  ![if c.lsu.state = .rWaitMem then [c.lsuIn.bits.lsuAddr] else [],
    if c.ifu.icache.state = .waitMem then [c.ifu.icache.memOut.ar.bits.addr] else []]

/-- The write each master has begun and not finished; the cache writes nothing. -/
def writing (c : Core) : Fin 2 → List Word :=
  ![if c.lsu.state = .wData ∨ c.lsu.state = .wWaitMem then [c.lsuIn.bits.lsuAddr] else [], []]

/-- The burst each master waits for. -/
def bursts (c : Core) : Fin 2 → Option ReadBurst :=
  ![if c.lsu.state = .rWaitMem then some ⟨(c.lsu.memOut c.lsuIn).ar.bits, 0⟩ else none,
    if c.ifu.icache.state = .waitMem then
      some ⟨c.ifu.icache.memOut.ar.bits, c.ifu.icache.fillCnt.toNat⟩
    else none]

/-- A master is between two reads while none of its beats is outstanding. -/
theorem bursts_eq_none_iff : ∀ k : Fin 2, c.bursts k = none ↔ c.reading k = [] := by
  refine Fin.forall_fin_two.mpr ⟨?_, ?_⟩ <;>
    · simp only [reading, bursts, Matrix.cons_val_zero, Matrix.cons_val_one]
      split_ifs <;> simp

/-- The load and store unit is in a transaction. -/
def Accesses (c : Core) : Prop := c.lsu.state ≠ .idle ∧ c.lsu.state ≠ .waitReady

/-! ### One cycle of the load and store unit -/

/-- In a transaction the registers in front of the unit stay. -/
theorem Accesses.next_lsuIn (h : Accesses c) : (c.next io).lsuIn.bits = c.lsuIn.bits :=
  next_lsuIn_of_not_ready (LSU.inReady_of_busy h.1 h.2)

/-- The load and store unit asks for a read in `r_addr` only. -/
theorem lsu_readReq : readReq (c.masters 0) =
    if c.lsu.state = .rAddr then some c.lsuIn.bits.lsuAddr else none := by
  by_cases hs : c.lsu.state = .rAddr <;> simp [masters, readReq, LSU.memOut, hs]

/-- It asks for a write in `w_addr` only. -/
theorem lsu_writeReq : writeReq (c.masters 0) =
    if c.lsu.state = .wAddr then some c.lsuIn.bits.lsuAddr else none := by
  by_cases hs : c.lsu.state = .wAddr <;> simp [masters, writeReq, LSU.memOut, hs]

/-- A request that is not accepted stays. -/
theorem lsu_readReq_holds {a : Word} (ha : readReq (c.masters 0) = some a)
    (hf : arFire (c.masters 0) (c.lsuMem io) = false) :
    readReq ((c.next io).masters 0) = some a := by
  rw [lsu_readReq] at ha ⊢
  have hst : c.lsu.state = .rAddr := by
    by_contra hst
    simp [hst] at ha
  have hacc : Accesses c := by simp [Accesses, hst]
  have hstay : (c.next io).lsu.state = .rAddr := by
    rw [next_lsu_state]
    simp only [LSU.nextState, hst]
    exact if_neg (by simpa [masters] using hf)
  rw [hstay, hacc.next_lsuIn]
  rwa [hst] at ha

/-- A write that is not taken is asked for again. -/
theorem lsu_writeReq_holds {a : Word} (ha : writeReq (c.masters 0) = some a)
    (hf : awFire (c.masters 0) (c.lsuMem io) = false) :
    writeReq ((c.next io).masters 0) = some a := by
  rw [lsu_writeReq] at ha ⊢
  have hst : c.lsu.state = .wAddr := by
    by_contra hst
    simp [hst] at ha
  have hacc : Accesses c := by simp [Accesses, hst]
  have hstay : (c.next io).lsu.state = .wAddr := by
    rw [next_lsu_state]
    simp only [LSU.nextState, hst]
    exact if_neg (by simpa [masters] using hf)
  rw [hstay, hacc.next_lsuIn]
  rwa [hst] at ha

/-- An accepted address was offered. -/
theorem lsu_state_of_arFire (h : arFire (c.masters 0) (c.lsuMem io) = true) :
    c.lsu.state = .rAddr :=
  of_decide_eq_true (Bool.and_eq_true_iff.mp h).1

/-- The write address is taken in `w_addr`. -/
theorem lsu_state_of_awFire (h : awFire (c.masters 0) (c.lsuMem io) = true) :
    c.lsu.state = .wAddr :=
  of_decide_eq_true (Bool.and_eq_true_iff.mp h).1

/-- The response is taken in `w_wait_mem`. -/
theorem lsu_state_of_bFire (h : bFire (c.masters 0) (c.lsuMem io) = true) :
    c.lsu.state = .wWaitMem :=
  of_decide_eq_true (Bool.and_eq_true_iff.mp h).2

/-- The data are taken with the address, or after it. -/
theorem lsu_state_of_wFire (h : wFire (c.masters 0) (c.lsuMem io) = true) :
    c.lsu.state = .wAddr ∨ c.lsu.state = .wData := by
  have hv : (decide (c.lsu.state = .wAddr) || decide (c.lsu.state = .wData)) = true :=
    (Bool.and_eq_true_iff.mp h).1
  simpa using hv

/-- The unit waits for its word once the address is taken, until the word comes. -/
theorem next_lsu_rWaitMem : (c.next io).lsu.state = .rWaitMem ↔
    arFire (c.masters 0) (c.lsuMem io) = true ∨
      c.lsu.state = .rWaitMem ∧ rFire (c.masters 0) (c.lsuMem io) = false :=
  LSU.nextState_eq_rWaitMem

/-- It waits for its response once the address is taken, until the response comes. -/
theorem next_lsu_writes : (c.next io).lsu.state = .wData ∨ (c.next io).lsu.state = .wWaitMem ↔
    awFire (c.masters 0) (c.lsuMem io) = true ∨ (c.lsu.state = .wData ∨ c.lsu.state = .wWaitMem) ∧
      bFire (c.masters 0) (c.lsuMem io) = false :=
  LSU.nextState_writes

/-- The read of the load and store unit. -/
theorem reading_next_lsu
    (hlast : rFire (c.masters 0) (c.lsuMem io) = true → (c.lsuMem io).r.bits.last = true) :
    (c.next io).reading 0 = pendingNext (c.reading 0) (arFire (c.masters 0) (c.lsuMem io))
      (readReq (c.masters 0)) (rLastFire (c.masters 0) (c.lsuMem io)) := by
  have hnow : c.reading 0 = if c.lsu.state = .rWaitMem then [c.lsuIn.bits.lsuAddr] else [] := rfl
  have hnext : (c.next io).reading 0 =
      if (c.next io).lsu.state = .rWaitMem then [(c.next io).lsuIn.bits.lsuAddr] else [] := rfl
  have hfin : rLastFire (c.masters 0) (c.lsuMem io) = rFire (c.masters 0) (c.lsuMem io) := by
    cases hr : rFire (c.masters 0) (c.lsuMem io) with
    | true => rw [rLastFire, hr, hlast hr, Bool.true_and]
    | false => rw [rLastFire, hr, Bool.false_and]
  rw [lsu_readReq, hnow, hnext, hfin]
  simp only [next_lsu_rWaitMem]
  cases har : arFire (c.masters 0) (c.lsuMem io) with
  | true =>
      have hst := lsu_state_of_arFire har
      have hacc : Accesses c := by simp [Accesses, hst]
      simp [hst, hacc.next_lsuIn, pendingNext]
  | false =>
      by_cases hst : c.lsu.state = .rWaitMem
      · have hacc : Accesses c := by simp [Accesses, hst]
        cases rFire (c.masters 0) (c.lsuMem io) <;> simp [hst, hacc.next_lsuIn, pendingNext]
      · simp [hst, pendingNext]

/-- The write of the load and store unit. -/
theorem writing_next_lsu :
    (c.next io).writing 0 = pendingNext (c.writing 0) (awFire (c.masters 0) (c.lsuMem io))
      (writeReq (c.masters 0)) (bFire (c.masters 0) (c.lsuMem io)) := by
  have hnow : c.writing 0 = if c.lsu.state = .wData ∨ c.lsu.state = .wWaitMem then
      [c.lsuIn.bits.lsuAddr] else [] := rfl
  have hnext : (c.next io).writing 0 =
      if (c.next io).lsu.state = .wData ∨ (c.next io).lsu.state = .wWaitMem then
        [(c.next io).lsuIn.bits.lsuAddr] else [] := rfl
  rw [lsu_writeReq, hnow, hnext]
  simp only [next_lsu_writes]
  cases haw : awFire (c.masters 0) (c.lsuMem io) with
  | true =>
      have hst := lsu_state_of_awFire haw
      have hacc : Accesses c := by simp [Accesses, hst]
      simp [hst, hacc.next_lsuIn, pendingNext]
  | false =>
      by_cases hst : c.lsu.state = .wData ∨ c.lsu.state = .wWaitMem
      · have hacc : Accesses c := by rcases hst with hst | hst <;> simp [Accesses, hst]
        cases bFire (c.masters 0) (c.lsuMem io) <;> simp [hst, hacc.next_lsuIn, pendingNext]
      · simp [hst, pendingNext]

/-- The cache asks for no write and gets no response. -/
theorem writing_next_cache :
    (c.next io).writing 1 = pendingNext (c.writing 1) (awFire (c.masters 1) (c.ifuMem io))
      (writeReq (c.masters 1)) (bFire (c.masters 1) (c.ifuMem io)) := by
  simp [writing, masters, IFU.memOut, ICache.memOut, awFire, bFire, pendingNext]

/-! ### One cycle of the cache -/

theorem next_icache : (c.next io).ifu.icache =
    c.ifu.icache.next (c.ifu.icacheIn (c.ifuIn io)) := rfl

/-- The cache asks for a read in `fill_addr` only. -/
theorem cache_readReq : readReq (c.masters 1) =
    if c.ifu.icache.state = .fillAddr then some c.ifu.icache.memOut.ar.bits.addr else none := by
  by_cases hs : c.ifu.icache.state = .fillAddr <;>
    simp [masters, readReq, IFU.memOut, hs]

theorem cache_arFire : arFire (c.masters 1) (c.ifuMem io) =
    c.ifu.icache.arFire (c.ifu.icacheIn (c.ifuIn io)) := rfl

theorem cache_rLastFire : rLastFire (c.masters 1) (c.ifuMem io) =
    c.ifu.icache.fillDone (c.ifu.icacheIn (c.ifuIn io)) := rfl

/-- What the cache asks for stays as it is until it is idle again. -/
theorem next_cache_arBits {i : In} (hne : c.ifu.icache.state ≠ .idle) :
    (c.next i).ifu.icache.memOut.ar.bits = c.ifu.icache.memOut.ar.bits :=
  ICache.memOut_arBits_next (ICache.reqFire_eq_false hne)

/-- A read that is not taken is asked for again. -/
theorem cache_readReq_holds {a : Word} (ha : readReq (c.masters 1) = some a)
    (hf : arFire (c.masters 1) (c.ifuMem io) = false) :
    readReq ((c.next io).masters 1) = some a := by
  rw [cache_readReq] at ha ⊢
  have hst : c.ifu.icache.state = .fillAddr := by
    by_contra hst
    simp [hst] at ha
  have hstay : (c.next io).ifu.icache.state = .fillAddr := by
    rw [next_icache, ICache.next_state_of_fillAddr hst, ← cache_arFire, hf]
    rfl
  rw [hstay, next_cache_arBits (by simp [hst])]
  rwa [hst] at ha

/-- The read of the cache. -/
theorem reading_next_cache :
    (c.next io).reading 1 = pendingNext (c.reading 1) (arFire (c.masters 1) (c.ifuMem io))
      (readReq (c.masters 1)) (rLastFire (c.masters 1) (c.ifuMem io)) := by
  rw [cache_readReq, cache_arFire, cache_rLastFire]
  generalize hi : c.ifu.icacheIn (c.ifuIn io) = i
  have hread : (c.next io).reading 1 = if (c.ifu.icache.next i).state = .waitMem then
      [(c.ifu.icache.next i).memOut.ar.bits.addr] else [] := by
    rw [← hi]
    rfl
  have hq : ∀ {s}, c.ifu.icache.state = s → s ≠ .idle →
      (c.ifu.icache.next i).memOut.ar.bits = c.ifu.icache.memOut.ar.bits := fun hs hne =>
    ICache.memOut_arBits_next (ICache.reqFire_eq_false (by simp [hs, hne]))
  rw [hread]
  cases hst : c.ifu.icache.state with
  | idle | resp =>
      -- the memory is not asked in these states
      have har := ICache.arFire_eq_false (i := i) (c := c.ifu.icache) (by simp [hst])
      have hd := ICache.fillDone_eq_false (i := i) (c := c.ifu.icache) (by simp [hst])
      have hw : (c.ifu.icache.next i).state ≠ .waitMem := by
        intro h
        rcases ICache.state_of_next_waitMem h with h | h <;> simp [hst] at h
      simp [reading, pendingNext, hst, har, hd, hw]
  | fillAddr =>
      have hd := ICache.fillDone_eq_false (i := i) (c := c.ifu.icache) (by simp [hst])
      have hn := ICache.next_state_of_fillAddr (i := i) hst
      cases har : c.ifu.icache.arFire i <;> rw [har] at hn <;>
        simp [reading, pendingNext, hst, hd, hn, hq hst]
  | waitMem =>
      have har := ICache.arFire_eq_false (i := i) (c := c.ifu.icache) (by simp [hst])
      have hn := ICache.next_state_of_waitMem (i := i) hst
      cases hd : c.ifu.icache.fillDone i with
      | false =>
          rw [hd] at hn
          simp [reading, pendingNext, hst, har, hn, hq hst]
      | true =>
          have hw : (c.ifu.icache.next i).state ≠ .waitMem := by
            rw [hn, hd]
            cases c.ifu.icache.isKilled i <;> simp
          simp [reading, pendingNext, hst, har, hw]

/-! ## The registers and the memory agree -/

/-- The registers of the masters, the interconnect and the memory agree. -/
structure BusTrack (c : Core) (m : Memory) : Prop where
  read : BusPath.Inv (candidate slavesMap) c.bus.readPath c.reading
    fun k => readReq (c.masters k)
  write : BusPath.Inv (candidate slavesMap) c.bus.writePath c.writing
    fun k => writeReq (c.masters k)
  fillStart : c.ifu.icache.state = .fillAddr → c.ifu.icache.fillCnt = 0
  burst : m.reading =
    if c.bus.readPath.Reaches 0 then c.bursts c.bus.readPath.owner else none
  address : m.writing = (c.writing 0).head?
  data : m.written = decide (c.lsu.state = .wWaitMem)

/-- The half of it that is about reads, `b` being the burst the slave behind the external
port owes. -/
structure ReadTrack (c : Core) (b : Option ReadBurst) : Prop where
  read : BusPath.Inv (candidate slavesMap) c.bus.readPath c.reading
    fun k => readReq (c.masters k)
  fillStart : c.ifu.icache.state = .fillAddr → c.ifu.icache.fillCnt = 0
  burst : b = if c.bus.readPath.Reaches 0 then c.bursts c.bus.readPath.owner else none

theorem BusTrack.toRead (h : BusTrack c m) : ReadTrack c m.reading :=
  ⟨h.read, h.fillStart, h.burst⟩

/-- The transactions of the load and store unit go to the memory. -/
def Routed (c : Core) : Prop := Accesses c → candidate slavesMap c.lsuIn.bits.lsuAddr = 0

/-! ### Paths -/

/-- The port of the load and store unit is the whole port while the read path reaches it. -/
theorem readPort_of_reaches {i : In} (h : c.bus.readPath.Reaches 0) :
    c.bus.readPort (c.busIn i) = i := by
  have h0 : c.bus.xbar.rOwnerId = 0 := h.2.symm
  rw [readPort, h0]
  rfl

/-- The write path hands the port on. -/
theorem writePort_of_reaches (h : c.bus.writePath.Reaches 0) :
    c.bus.writePort (c.busIn io) = io := by
  have h0 : c.bus.xbar.wOwnerId = 0 := h.2.symm
  rw [writePort, h0]
  rfl

/-- The transaction of the load and store unit on the read path. -/
theorem current_lsu_read {a : Word} (h : current (c.reading 0) (readReq (c.masters 0)) = some a) :
    Accesses c ∧ a = c.lsuIn.bits.lsuAddr := by
  rw [lsu_readReq] at h
  cases hst : c.lsu.state <;> simp [reading, Accesses, hst] at h ⊢ <;> exact h.symm

/-- The write in flight has the address of the instruction in the unit. -/
theorem current_lsu_write {a : Word}
    (h : current (c.writing 0) (writeReq (c.masters 0)) = some a) :
    Accesses c ∧ a = c.lsuIn.bits.lsuAddr := by
  rw [lsu_writeReq] at h
  cases hst : c.lsu.state <;> simp [writing, Accesses, hst] at h ⊢ <;> exact h.symm

theorem current_cache_write :
    current (c.writing 1) (writeReq (c.masters 1)) = none := rfl

/-- The read of the cache in flight has the address it asks for. -/
theorem current_cache_read {a : Word}
    (h : current (c.reading 1) (readReq (c.masters 1)) = some a) :
    a = c.ifu.icache.memOut.ar.bits.addr := by
  rw [cache_readReq] at h
  cases hst : c.ifu.icache.state <;> simp [reading, hst] at h <;> exact h.symm

/-- The load and store unit is connected to the memory. -/
theorem BusTrack.reaches_of_lsu (h : BusTrack c m) (hr : Routed c)
    (hk : c.bus.readPath.Connected 0) : c.bus.readPath.Reaches 0 := by
  obtain ⟨a, hcur, hport⟩ := current_of_open h.read hk.1
  rw [← hk.2] at hcur
  obtain ⟨hacc, rfl⟩ := current_lsu_read hcur
  exact ⟨hk.1, (hr hacc).symm.trans hport⟩

/-- The cache is connected to the memory for the blocks of the memory. -/
theorem BusTrack.reaches_of_cache (h : BusTrack c m) (hk : c.bus.readPath.Connected 1)
    (hr : candidate slavesMap c.ifu.icache.memOut.ar.bits.addr = 0) :
    c.bus.readPath.Reaches 0 := by
  obtain ⟨a, hcur, hport⟩ := current_of_open h.read hk.1
  rw [← hk.2] at hcur
  rw [current_cache_read hcur] at hport
  exact ⟨hk.1, hr.symm.trans hport⟩

/-- Only the load and store unit writes, and only to the memory. -/
theorem BusTrack.writePath_of_open (h : BusTrack c m) (hr : Routed c)
    (ho : c.bus.writePath.Open) :
    c.bus.writePath.Connected 0 ∧ c.bus.writePath.Reaches 0 := by
  obtain ⟨a, hcur, hport⟩ := current_of_open h.write ho
  have hown : c.bus.writePath.owner = 0 := by
    rcases (show ∀ k : Fin 2, k = 0 ∨ k = 1 by decide) c.bus.writePath.owner with hk | hk
    · exact hk
    · rw [hk, current_cache_write] at hcur
      cases hcur
  rw [hown] at hcur
  obtain ⟨hacc, rfl⟩ := current_lsu_write hcur
  exact ⟨⟨ho, hown.symm⟩, ho, (hr hacc).symm.trans hport⟩

/-- The memory sees the write channels of the load and store unit. -/
theorem BusTrack.write_signal (h : BusTrack c m) (hr : Routed c) {f : Out → In → Bool}
    (hf : WriteSignal f) : f (c.master io) io = f (c.masters 0) (c.lsuMem io) := by
  have hm : f (c.masters 0) (c.lsuMem io) = _ := hf.masterIn (s := c.bus) (i := c.busIn io) 0
  have hs : f (c.master io) io = _ := hf.slaveOut (s := c.bus) (i := c.busIn io) 0
  rw [hm, hs]
  by_cases ho : c.bus.writePath.Open
  · obtain ⟨hk, hj⟩ := h.writePath_of_open hr ho
    rw [decide_eq_true hk, decide_eq_true hj]
  · rw [decide_eq_false fun hk => ho hk.1, decide_eq_false fun hj => ho hj.1]

/-- With a handshake, the memory sees the payload of the load and store unit. -/
theorem BusTrack.write_payload (h : BusTrack c m) (hr : Routed c) {f : Out → In → Bool}
    (hf : WriteSignal f) (hfire : f (c.masters 0) (c.lsuMem io) = true) :
    (c.master io).aw = (c.masters 0).aw ∧ (c.master io).w = (c.masters 0).w := by
  have hs : f (c.masters 0) (c.lsuMem io) = _ := hf.masterIn (s := c.bus) (i := c.busIn io) 0
  rw [hfire, eq_comm, Bool.and_eq_true, decide_eq_true_eq] at hs
  have hj := (h.writePath_of_open hr hs.1.1).2
  have hown : c.masters 0 = c.bus.writeOwner (c.busIn io) := congrArg c.masters hs.1.2
  obtain ⟨haw, hw, -⟩ := slaveOut_write_of_reaches (i := c.busIn io) hj
  rw [hown]
  exact ⟨haw, hw⟩

/-! ### Answers -/

/-- What the memory gives for a burst it has accepted. -/
theorem answer_of_burst (hans : m.Answers init (c.master io) io) {b : ReadBurst}
    (hm : m.reading = some b) (hv : io.r.valid = true) :
    (io.r.bits.last = true ↔ b.beat = b.ar.len.toNat) ∧ io.r.bits.resp = AXIResp.OKAY ∧
      io.r.bits.data = alignedWord (m.bytes init) (beatAddr b.ar b.beat) := by
  obtain ⟨b', hb', hlast⟩ := hans.bursts hv
  obtain ⟨hresp, hdata⟩ := hans.reads hv b hm
  rw [hm, Option.some_inj] at hb'
  subst hb'
  exact ⟨hlast, hresp, hdata⟩

/-- A word comes to the unit while it waits for one. -/
theorem reading_lsu (hr : rFire (c.masters 0) (c.lsuMem io) = true) : c.lsu.state = .rWaitMem := by
  simp only [rFire, masters, LSU.memOut, Matrix.cons_val_zero, Bool.and_eq_true,
    decide_eq_true_eq] at hr
  exact hr.2

/-- **A load gets the word around its address.** -/
theorem BusTrack.lsu_read (h : BusTrack c m) (hroute : Routed c)
    (hans : m.Answers init (c.master io) io)
    (hr : rFire (c.masters 0) (c.lsuMem io) = true) :
    (c.lsuMem io).r.bits.last = true ∧ (c.lsuMem io).r.bits.resp = AXIResp.OKAY ∧
      (c.lsuMem io).r.bits.data = alignedWord (m.bytes init) c.lsuIn.bits.lsuAddr := by
  have hst := reading_lsu hr
  have hk : c.bus.readPath.Connected 0 := by
    by_contra hk
    have := h.read.quiet 0 hk
    simp [reading, hst] at this
  have hj := h.reaches_of_lsu hroute hk
  have hio : (c.lsuMem io).r = io.r :=
    (masterIn_read_of_connected (i := c.busIn io) hk).2.trans
      (congrArg In.r (readPort_of_reaches hj))
  have hb : m.reading = some ⟨(c.lsu.memOut c.lsuIn).ar.bits, 0⟩ := by
    rw [h.burst, if_pos hj, ← hk.2]
    simp [bursts, hst]
  rw [hio]
  have hv : io.r.valid = true := by
    rw [← hio]
    exact (Bool.and_eq_true_iff.mp hr).1
  obtain ⟨hlast, hresp, hdata⟩ := answer_of_burst hans hb hv
  exact ⟨hlast.mpr rfl, hresp, hdata⟩

/-- **A fill of a block of the memory gets the words of the block.** -/
theorem BusTrack.fill_beat (h : BusTrack c m)
    (hroute : candidate slavesMap c.ifu.icache.memOut.ar.bits.addr = 0)
    (hans : m.Answers init (c.master io) io)
    (hr : rFire (c.masters 1) (c.ifuMem io) = true) :
    ((c.ifuMem io).r.bits.last = true ↔ c.ifu.icache.fillCnt = 3) ∧
      (c.ifuMem io).r.bits.resp = AXIResp.OKAY ∧
      (c.ifuMem io).r.bits.data = alignedWord (m.bytes init)
        (wordAddr c.ifu.icache.fillTag c.ifu.icache.fillIndex c.ifu.icache.fillCnt) := by
  have hst := c.ifu.icache.state_of_rFire (c.ifu.icacheIn (c.ifuIn io)) hr
  have hk : c.bus.readPath.Connected 1 := by
    by_contra hk
    have := h.read.quiet 1 hk
    simp [reading, hst] at this
  have hj := h.reaches_of_cache hk hroute
  have hio : (c.ifuMem io).r = io.r :=
    (masterIn_read_of_connected (i := c.busIn io) hk).2.trans
      (congrArg In.r (readPort_of_reaches hj))
  have hb : m.reading = some ⟨c.ifu.icache.memOut.ar.bits, c.ifu.icache.fillCnt.toNat⟩ := by
    rw [h.burst, if_pos hj, ← hk.2]
    simp [bursts, hst]
  rw [hio]
  have hv : io.r.valid = true := by
    rw [← hio]
    exact (Bool.and_eq_true_iff.mp hr).1
  obtain ⟨hlast, hresp, hdata⟩ := answer_of_burst hans hb hv
  refine ⟨?_, hresp, ?_⟩
  · rw [hlast, ← BitVec.toNat_inj]
    rfl
  · rw [hdata]
    exact congrArg _ (beatAddr_block c.ifu.icache.fillAddr _ c.ifu.icache.fillCnt rfl rfl rfl)

/-- **A store is answered without error.** -/
theorem BusTrack.lsu_write (h : BusTrack c m) (hroute : Routed c)
    (hans : m.Answers init (c.master io) io)
    (hb : bFire (c.masters 0) (c.lsuMem io) = true) :
    (c.lsuMem io).b.bits.resp = AXIResp.OKAY := by
  have hsig := hb
  have hm := writeSignal_bFire.masterIn (s := c.bus) (i := c.busIn io) 0
  rw [show bFire ((c.busIn io).masters 0) (c.bus.masterIn (c.busIn io) 0) = true from hb, eq_comm,
    Bool.and_eq_true, decide_eq_true_eq] at hm
  have hj := (h.writePath_of_open hroute hm.1.1).2
  have hio : (c.lsuMem io).b = io.b :=
    (masterIn_write_of_connected (i := c.busIn io) hm.1).2.2.trans
      (congrArg In.b (writePort_of_reaches hj))
  rw [hio]
  refine hans.respOkay ?_
  rw [← hio]
  exact (Bool.and_eq_true_iff.mp hsig).1

/-! ### The step -/

/-- A master that has not begun a read in this cycle has had no handshake. -/
theorem arFire_of_not_start {k : Fin 2}
    (hk : ¬ (c.bus.readStart (c.busIn io) = true ∧ k = c.bus.readPath.owner)) :
    arFire (c.masters k) (c.bus.masterIn (c.busIn io) k) = false := by
  refine (master_arFire (s := c.bus) (i := c.busIn io) k).trans ?_
  simpa [and_comm] using hk

/-- The write address is taken only where a write starts. -/
theorem awFire_of_not_start {k : Fin 2}
    (hk : ¬ (c.bus.writeStart (c.busIn io) = true ∧ k = c.bus.writePath.owner)) :
    awFire (c.masters k) (c.bus.masterIn (c.busIn io) k) = false := by
  refine (master_awFire (s := c.bus) (i := c.busIn io) k).trans ?_
  simpa [and_comm] using hk

/-- A master with a handshake has not begun a read, one that is ready has. -/
theorem reading_of_arValid : ∀ k : Fin 2, (c.masters k).ar.valid = true → c.reading k = [] := by
  refine Fin.forall_fin_two.mpr ⟨fun h => ?_, fun h => ?_⟩
  · have hst : c.lsu.state = .rAddr := by simpa [masters, LSU.memOut] using h
    simp [reading, hst]
  · have hst : c.ifu.icache.state = .fillAddr := by simpa [masters, IFU.memOut] using h
    simp [reading, hst]

/-- A master that takes beats has some outstanding. -/
theorem reading_of_rReady : ∀ k : Fin 2, (c.masters k).rReady = true → c.reading k ≠ [] := by
  refine Fin.forall_fin_two.mpr ⟨fun h => ?_, fun h => ?_⟩
  · have hst : c.lsu.state = .rWaitMem := by simpa [masters, LSU.memOut] using h
    simp [reading, hst]
  · have hst : c.ifu.icache.state = .waitMem := by simpa [masters, IFU.memOut] using h
    simp [reading, hst]

/-- A master that asks for a write has none outstanding. -/
theorem writing_of_awValid : ∀ k : Fin 2, (c.masters k).aw.valid = true → c.writing k = [] := by
  refine Fin.forall_fin_two.mpr ⟨fun h => ?_, fun _ => rfl⟩
  have hst : c.lsu.state = .wAddr := by simpa [masters, LSU.memOut] using h
  simp [writing, hst]

/-- A master that takes a response has a write outstanding. -/
theorem writing_of_bReady : ∀ k : Fin 2, (c.masters k).bReady = true → c.writing k ≠ [] := by
  refine Fin.forall_fin_two.mpr ⟨fun h => ?_, fun h => ?_⟩
  · have hst : c.lsu.state = .wWaitMem := by simpa [masters, LSU.memOut] using h
    simp [writing, hst]
  · simp [masters, IFU.memOut, ICache.memOut] at h

/-- The cycle of the masters is a cycle of the read path. -/
theorem readCycle
    (hlast : rFire (c.masters 0) (c.lsuMem io) = true → (c.lsuMem io).r.bits.last = true) :
    BusPath.Cycle c.bus.readPath c.reading (c.next io).reading
      (fun k => readReq (c.masters k)) (fun k => readReq ((c.next io).masters k))
      (c.bus.readStart (c.busIn io)) (c.bus.readFin (c.busIn io)) where
  start_open hs := by
    have hf : arFire (c.masters c.bus.readPath.owner) _ = true := owner_arFire hs
    exact ⟨of_decide_eq_true (Bool.and_eq_true_iff.mp hs).1,
      reading_of_arValid _ (Bool.and_eq_true_iff.mp hf).1⟩
  fin_open hs := by
    obtain ⟨ho, hf⟩ := Bool.and_eq_true_iff.mp hs
    simp only [rLastFire, rFire, Bool.and_eq_true] at hf
    exact ⟨of_decide_eq_true ho, reading_of_rReady _ hf.1.2⟩
  holds := Fin.forall_fin_two.mpr
    ⟨fun _ ha hk => lsu_readReq_holds ha (arFire_of_not_start hk),
      fun _ ha hk => cache_readReq_holds ha (arFire_of_not_start hk)⟩
  acc_next := by
    refine Fin.forall_fin_two.mpr ⟨?_, ?_⟩
    · exact (reading_next_lsu hlast).trans
        (pendingNext_reads (s := c.bus) (i := c.busIn io) _ 0)
    · exact reading_next_cache.trans (pendingNext_reads (s := c.bus) (i := c.busIn io) _ 1)

/-- It is one of the write path. -/
theorem writeCycle :
    BusPath.Cycle c.bus.writePath c.writing (c.next io).writing
      (fun k => writeReq (c.masters k)) (fun k => writeReq ((c.next io).masters k))
      (c.bus.writeStart (c.busIn io)) (c.bus.writeFin (c.busIn io)) where
  start_open hs := by
    have hf : awFire (c.masters c.bus.writePath.owner) _ = true := owner_awFire hs
    exact ⟨of_decide_eq_true (Bool.and_eq_true_iff.mp hs).1,
      writing_of_awValid _ (Bool.and_eq_true_iff.mp hf).1⟩
  fin_open hs := by
    obtain ⟨ho, hf⟩ := Bool.and_eq_true_iff.mp hs
    simp only [bFire, Bool.and_eq_true] at hf
    exact ⟨of_decide_eq_true ho, writing_of_bReady _ hf.2⟩
  holds := Fin.forall_fin_two.mpr
    ⟨fun _ ha hk => lsu_writeReq_holds ha (awFire_of_not_start hk),
      fun _ ha _ => ha⟩
  acc_next := Fin.forall_fin_two.mpr
    ⟨writing_next_lsu.trans (pendingNext_writes (s := c.bus) (i := c.busIn io) _ 0),
      writing_next_cache.trans (pendingNext_writes (s := c.bus) (i := c.busIn io) _ 1)⟩

/-! ### The memory follows -/

/-- The memory sees the read channels of the master that is connected to it. -/
theorem readNext_memory {k : Fin 2} (hk : c.bus.readPath.Connected k)
    (hj : c.bus.readPath.Reaches 0) (b : Option ReadBurst) :
    readNext b (c.master io) io = readNext b (c.masters k) (c.bus.masterIn (c.busIn io) k) := by
  have hown : c.masters k = c.bus.readOwner (c.busIn io) := congrArg _ hk.2
  have hport := readPort_of_reaches (i := io) hj
  obtain ⟨har, hready⟩ := slaveOut_read_of_reaches (i := c.busIn io) hj
  obtain ⟨har', hr⟩ := masterIn_read_of_connected (i := c.busIn io) hk
  rw [hport] at har' hr
  rw [← hown] at har hready
  simp only [readNext, arFire, rFire, master, har, hready, har', hr]

/-- The burst of the load and store unit, as long as it goes on. -/
theorem bursts_next_lsu
    (hlast : rFire (c.masters 0) (c.lsuMem io) = true → (c.lsuMem io).r.bits.last = true)
    (hfin : rLastFire (c.masters 0) (c.lsuMem io) = false) :
    (c.next io).bursts 0 = readNext (c.bursts 0) (c.masters 0) (c.lsuMem io) := by
  have hr : rFire (c.masters 0) (c.lsuMem io) = false := by
    by_contra hr
    rw [Bool.not_eq_false] at hr
    simp [rLastFire, hr, hlast hr] at hfin
  have hnow : c.bursts 0 =
      if c.lsu.state = .rWaitMem then some ⟨(c.lsu.memOut c.lsuIn).ar.bits, 0⟩ else none := rfl
  have hnext : (c.next io).bursts 0 = if (c.next io).lsu.state = .rWaitMem then
      some ⟨((c.next io).lsu.memOut (c.next io).lsuIn).ar.bits, 0⟩ else none := rfl
  have hbits : Accesses c →
      ((c.next io).lsu.memOut (c.next io).lsuIn).ar.bits = (c.lsu.memOut c.lsuIn).ar.bits :=
    fun hacc => by simp only [LSU.memOut, hacc.next_lsuIn]
  rw [hnow, hnext]
  simp only [next_lsu_rWaitMem]
  cases har : arFire (c.masters 0) (c.lsuMem io) with
  | true =>
      have hst := lsu_state_of_arFire har
      simp only [hst, hbits (by simp [Accesses, hst]), true_or, if_true, reduceCtorEq, if_false]
      exact (readNext_none_of_fire har).symm
  | false =>
      by_cases hst : c.lsu.state = .rWaitMem
      · simp only [hst, hr, hbits (by simp [Accesses, hst]), and_self, or_true, if_true]
        exact (readNext_some_of_not_fire hr).symm
      · simp [hst, readNext_none_of_not_fire har]

/-- The burst of a connected master after a cycle. -/
theorem ReadTrack.bursts_next (h : ReadTrack c b)
    (hlast : rFire (c.masters 0) (c.lsuMem io) = true → (c.lsuMem io).r.bits.last = true)
    (hb : ReadsInBursts b io) (hj : c.bus.readPath.Reaches 0)
    (hfin : c.bus.readFin (c.busIn io) = false) :
    ∀ k : Fin 2, c.bus.readPath.Connected k →
      (c.next io).bursts k = readNext (c.bursts k) (c.master io) io := by
  refine Fin.forall_fin_two.mpr ⟨fun hk => ?_, fun hk => ?_⟩
  · have hsig : rLastFire (c.masters 0) (c.lsuMem io) = _ :=
      readSignal_rLastFire.masterIn (s := c.bus) (i := c.busIn io) 0
    rw [decide_eq_true hk, Bool.true_and] at hsig
    rw [readFin, decide_eq_true hk.1, Bool.true_and] at hfin
    rw [readNext_memory hk hj]
    exact bursts_next_lsu hlast (hsig.trans hfin)
  · have htrack : ICache.FillTrack c.ifu.icache (c.bursts 1) :=
      ⟨fun hs => by simp [bursts, hs], fun hs => by simp [bursts, hs], h.fillStart⟩
    have hb : ReadsInBursts (c.bursts 1) (c.ifuMem io) := by
      have hio : (c.ifuMem io).r = io.r :=
        (masterIn_read_of_connected (i := c.busIn io) hk).2.trans
          (congrArg In.r (readPort_of_reaches hj))
      have hm := h.burst
      rw [if_pos hj, ← hk.2] at hm
      rw [ReadsInBursts, hio, ← hm]
      exact hb
    have hnext := htrack.next (i := c.ifu.icacheIn (c.ifuIn io)) hb
    rw [readNext_memory hk hj]
    by_cases hs : (c.next io).ifu.icache.state = .waitMem
    · simp only [bursts, Matrix.cons_val_one, hs, if_true]
      exact (hnext.waiting hs).symm
    · simp only [bursts, Matrix.cons_val_one, hs, if_false]
      exact (hnext.quiet hs).symm

/-- The beat counter is 0 when the cache requests a block. -/
theorem fillStart_next (h : c.ifu.icache.state = .fillAddr → c.ifu.icache.fillCnt = 0)
    (hs : (c.next io).ifu.icache.state = .fillAddr) : (c.next io).ifu.icache.fillCnt = 0 := by
  rw [next_icache] at hs ⊢
  cases hst : c.ifu.icache.state with
  | idle => simp [ICache.next, hst]
  | fillAddr =>
      simp [ICache.next, hst, h hst, ICache.rFire_eq_false (c := c.ifu.icache) (by simp [hst])]
  | waitMem =>
      rw [ICache.next_state_of_waitMem hst] at hs
      split_ifs at hs
  | resp =>
      rw [ICache.next_state_of_resp hst] at hs
      split_ifs at hs

/-- A connected burst goes on, or ends with its last beat. -/
theorem ReadTrack.burst_reached (h : ReadTrack c b)
    (hlast : rFire (c.masters 0) (c.lsuMem io) = true → (c.lsuMem io).r.bits.last = true)
    (hb : ReadsInBursts b io) (hj : c.bus.readPath.Reaches 0) :
    readNext b (c.master io) io = if (c.next io).bus.readPath.Reaches 0 then
      (c.next io).bursts (c.next io).bus.readPath.owner else none := by
  have hbus : (c.next io).bus = c.bus.next slavesMap (c.busIn io) := rfl
  have hcycle := readCycle hlast
  have hk : c.bus.readPath.Connected c.bus.readPath.owner := ⟨hj.1, rfl⟩
  have hb' := h.burst
  rw [if_pos hj] at hb'
  cases hf : c.bus.readFin (c.busIn io) with
  | false =>
      have hpath : (c.next io).bus.readPath = c.bus.readPath := by
        rw [hbus, readPath_next, hf, next_of_open hj.1 rfl]
      rw [hpath, if_pos hj, hb']
      exact (h.bursts_next hlast hb hj hf _ hk).symm
  | true =>
      have hclosed : ¬ (c.next io).bus.readPath.Reaches 0 := by
        intro h'
        rw [hbus, readPath_next] at h'
        exact not_open_of_fin hj.1 hf h'.1
      have hend : rLastFire (c.master io) io = true := by
        have hs : rLastFire (c.master io) io = _ :=
          readSignal_rLastFire.slaveOut (s := c.bus) (i := c.busIn io) 0
        rw [hs, decide_eq_true hj, Bool.true_and]
        exact (Bool.and_eq_true_iff.mp hf).2
      obtain ⟨hr, hl⟩ := Bool.and_eq_true_iff.mp hend
      rw [if_neg hclosed, hb']
      cases hb : c.bursts c.bus.readPath.owner with
      | none => exact absurd ((bursts_eq_none_iff _).mp hb) (hcycle.fin_open hf).2
      | some b => exact readNext_some_of_last hr hl

/-- The memory that no read reaches has no burst after the cycle either. -/
theorem ReadTrack.burst_unreached (h : ReadTrack c b)
    (hlast : rFire (c.masters 0) (c.lsuMem io) = true → (c.lsuMem io).r.bits.last = true)
    (hj : ¬ c.bus.readPath.Reaches 0) :
    readNext b (c.master io) io = if (c.next io).bus.readPath.Reaches 0 then
      (c.next io).bursts (c.next io).bus.readPath.owner else none := by
  have hbus : (c.next io).bus = c.bus.next slavesMap (c.busIn io) := rfl
  have hblocked := slaveOut_read_of_not_reaches (i := c.busIn io) hj
  rw [h.burst, if_neg hj, readNext_none_of_not_fire (by simp [arFire, master, hblocked.1])]
  by_cases ho : c.bus.readPath.Open
  · -- another slave is connected, or the path closes
    refine (if_neg fun h' => ?_).symm
    rw [hbus, readPath_next] at h'
    cases hf : c.bus.readFin (c.busIn io) with
    | false =>
        rw [hf, next_of_open ho rfl] at h'
        exact hj h'
    | true => exact not_open_of_fin ho hf h'.1
  · -- nothing is connected, so no master has begun a read
    have hk : ∀ k : Fin 2, (c.next io).bursts k = none := by
      intro k
      rw [bursts_eq_none_iff, (readCycle hlast).acc_next, if_neg fun hk => ho hk.1]
      exact h.read.quiet k fun hk => ho hk.1
    rw [hk]
    split_ifs <;> rfl

/-- **The step of the reads.** -/
theorem ReadTrack.next (h : ReadTrack c b)
    (hlast : rFire (c.masters 0) (c.lsuMem io) = true → (c.lsuMem io).r.bits.last = true)
    (hb : ReadsInBursts b io) : ReadTrack (c.next io) (readNext b (c.master io) io) := by
  have hread : BusPath.Inv (candidate slavesMap) (c.next io).bus.readPath (c.next io).reading
      fun k => readReq ((c.next io).masters k) := by
    rw [show (c.next io).bus = c.bus.next slavesMap (c.busIn io) from rfl, readPath_next]
    exact h.read.next (readCycle hlast)
  refine ⟨hread, fillStart_next h.fillStart, ?_⟩
  by_cases hj : c.bus.readPath.Reaches 0
  · exact h.burst_reached hlast hb hj
  · exact h.burst_unreached hlast hj

/-- The address of the write the memory has accepted. -/
theorem writing_memory (h : BusTrack c m) (hroute : Routed c) :
    (m.next (c.master io) io).writing = ((c.next io).writing 0).head? := by
  have hw : (m.next (c.master io) io).writing = if bFire (c.master io) io then none
      else if awFire (c.master io) io then some (c.master io).aw.bits.addr else m.writing := rfl
  rw [hw, h.write_signal hroute writeSignal_bFire, h.write_signal hroute writeSignal_awFire,
    writing_next_lsu, h.address]
  cases hb : bFire (c.masters 0) (c.lsuMem io) with
  | true =>
      have hst := lsu_state_of_bFire hb
      simp [pendingNext, writing, hst, awFire, masters, LSU.memOut]
  | false =>
      cases ha : awFire (c.masters 0) (c.lsuMem io) with
      | true =>
          have hst := lsu_state_of_awFire ha
          rw [(h.write_payload hroute writeSignal_awFire ha).1, lsu_writeReq, hst]
          simp [pendingNext, writing, hst, masters, LSU.memOut]
      | false => simp [pendingNext]

/-- The memory takes no data before the address. -/
theorem BusTrack.address_first (h : BusTrack c m) (hroute : Routed c)
    (hans : m.Answers init (c.master io) io) (hst : c.lsu.state = .wAddr)
    (hw : wFire (c.masters 0) (c.lsuMem io) = true) :
    awFire (c.masters 0) (c.lsuMem io) = true := by
  have haddr := hans.dataAfterAddress
  rw [h.write_signal hroute writeSignal_wFire, h.write_signal hroute writeSignal_awFire,
    h.address] at haddr
  rcases haddr hw with hsome | ha
  · simp [Core.writing, hst] at hsome
  · exact ha

/-- The data of a store are taken with its address or later: a memory that answers as the protocol
says has been told where they go. -/
theorem BusTrack.addressed (h : BusTrack c m) (hroute : Routed c)
    (hans : m.Answers init (c.master io) io) (hw : wFire (c.masters 0) (c.lsuMem io) = true) :
    c.lsu.state = .wData ∨ awFire (c.masters 0) (c.lsuMem io) = true := by
  rcases lsu_state_of_wFire hw with hst | hst
  · exact .inr (h.address_first hroute hans hst hw)
  · exact .inl hst

/-- The memory has the data of a write when the load and store unit waits for the answer. -/
theorem written_memory (h : BusTrack c m) (hroute : Routed c)
    (hans : m.Answers init (c.master io) io) :
    (m.next (c.master io) io).written = decide ((c.next io).lsu.state = .wWaitMem) := by
  have hw : (m.next (c.master io) io).written = if bFire (c.master io) io then false
      else m.written || wLastFire (c.master io) io := rfl
  have hlast : wLastFire (c.masters 0) (c.lsuMem io) = wFire (c.masters 0) (c.lsuMem io) :=
    Bool.and_true _
  have hnext : (c.next io).lsu.state = .wWaitMem ↔ wFire (c.masters 0) (c.lsuMem io) = true ∧
        (c.lsu.state = .wData ∨ awFire (c.masters 0) (c.lsuMem io) = true) ∨
      c.lsu.state = .wWaitMem ∧ bFire (c.masters 0) (c.lsuMem io) = false :=
    LSU.nextState_eq_wWaitMem
  rw [hw, h.write_signal hroute writeSignal_bFire, h.write_signal hroute writeSignal_wLastFire,
    h.data, hlast]
  simp only [hnext]
  cases hd : wFire (c.masters 0) (c.lsuMem io) with
  | true =>
      -- data is sent with its address at the earliest
      have hst := h.addressed hroute hans hd
      have hb : bFire (c.masters 0) (c.lsuMem io) = false := by
        by_contra hb
        have hst' := lsu_state_of_bFire (Bool.not_eq_false _ ▸ hb)
        rcases lsu_state_of_wFire hd with hst | hst <;> simp [hst] at hst'
      simp [hst, hb]
  | false => cases bFire (c.masters 0) (c.lsuMem io) <;> simp

/-- **The memory stores the beats of the load and store unit** at its address. -/
theorem BusTrack.stores_next {i : In} (h : BusTrack c m) (hroute : Routed c) :
    (m.next (c.master i) i).stores = if wFire (c.masters 0) (c.lsuMem i) then
      (c.lsuIn.bits.lsuAddr, (c.masters 0).w.bits) :: m.stores else m.stores := by
  have hs : (m.next (c.master i) i).stores = if wFire (c.master i) i then
      (m.writeAddr (c.master i), (c.master i).w.bits) :: m.stores else m.stores := rfl
  rw [hs, h.write_signal hroute writeSignal_wFire]
  split_ifs with hw
  · obtain ⟨haw, hbits⟩ := h.write_payload hroute writeSignal_wFire hw
    have hst := lsu_state_of_wFire hw
    have haddr : m.writeAddr (c.master i) = c.lsuIn.bits.lsuAddr := by
      rw [Memory.writeAddr, haw, h.address]
      rcases hst with hst | hst <;> simp [Core.writing, hst, masters, LSU.memOut]
    rw [haddr, hbits]
  · rfl

/-- **The step.** -/
theorem BusTrack.next (h : BusTrack c m) (hroute : Routed c)
    (hans : m.Answers init (c.master io) io) : BusTrack (c.next io) (m.next (c.master io) io) := by
  obtain ⟨hread, hstart, hburst⟩ :=
    h.toRead.next (fun hr => (h.lsu_read hroute hans hr).1) hans.bursts
  refine ⟨hread, ?_, hstart, hburst, writing_memory h hroute, written_memory h hroute hans⟩
  rw [show (c.next io).bus = c.bus.next slavesMap (c.busIn io) from rfl, writePath_next]
  exact h.write.next writeCycle

theorem BusTrack.of_reset (h : c.IsReset) : BusTrack c {} := by
  have hl := h.lsu.state
  have hi := h.ifu.icache.state
  have hr : ∀ k, c.reading k = [] := by
    refine Fin.forall_fin_two.mpr ⟨?_, ?_⟩ <;> simp [reading, hl, hi]
  have hw : ∀ k, c.writing k = [] := by
    refine Fin.forall_fin_two.mpr ⟨?_, ?_⟩ <;> simp [writing, hl]
  have hrp : c.bus.readPath.arb = .idle ∧ c.bus.readPath.xbar = .idle := by
    simp [readPath, h.bus.arbiter, AXI4Arbiter.reset, h.bus.xbar.rState]
  have hwp : c.bus.writePath.arb = .idle ∧ c.bus.writePath.xbar = .idle := by
    simp [writePath, h.bus.arbiter, AXI4Arbiter.reset, h.bus.xbar.wState]
  have hclosed : ¬ c.bus.readPath.Reaches 0 := fun h' =>
    absurd (hrp.1.symm.trans h'.1.1) (by decide)
  refine ⟨⟨fun _ => hrp.2, fun k => ?_, fun k _ => hr k, fun hb => ?_⟩,
    ⟨fun _ => hwp.2, fun k => ?_, fun k _ => hw k, fun hb => ?_⟩, fun hs => ?_, ?_, ?_, ?_⟩
  · simp [hr k]
  · exact absurd (hrp.1.symm.trans hb) (by decide)
  · simp [hw k]
  · exact absurd (hwp.1.symm.trans hb) (by decide)
  · simp [hi] at hs
  · rw [if_neg hclosed]
  · simp [hw]
  · simp [hl]

end Core

end Bailuwan
