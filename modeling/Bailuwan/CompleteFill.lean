/-
# Line fills through every slave

The cache counts the beats it gets and ends a fill with the beat marked as the last; that
the two agree is up to the slave.  The slave behind the external port is any one that
answers in bursts, and the error slave marks every fill as faulty.  The timer answers every
address with one beat, the last one: a line is complete when it is marked valid if and only
if its block does not belong to the timer (`lineFills_iff`).
-/
import Bailuwan.Simulator
import Bailuwan.CoreBus
import Bailuwan.ErrorSlave

namespace Bailuwan

open Synchronous AXI4 BusPath Interconnect

namespace ICache

variable {α : Type*} (c : ICache α) (i : ICacheIn α)

/-- The line being filled is marked valid: `validStorage_next` says that lines become valid in
no other way. -/
def marks : Bool := c.fillDone i && !c.fillError i && !i.flush

/-- A line is valid after a cycle that marks it, or if it was before and is not flushed. -/
theorem validStorage_next (k : BitVec 2) : (c.next i).validStorage k =
    (c.marks i && decide (c.fillIndex = k) || !i.flush && c.validStorage k) := by
  simp only [next, marks]
  cases i.flush <;> cases c.fillDone i <;> cases c.fillError i <;>
    by_cases hk : c.fillIndex = k <;> simp [hk]

end ICache

namespace Core

/-! ## The statement -/

section Statement

variable (r : machine.Run)

/-- The burst the slave behind the external port owes. -/
def portBurst : ℕ → Option ReadBurst :=
  r.watch none fun b c io => readNext b (c.master io) io

/-- The slave behind the external port answers reads in bursts. -/
def Compliant : Prop := ∀ t, ReadsInBursts (portBurst r t) (r.inp t)

/-- The cache in cycle `t`. -/
abbrev cache (t : ℕ) : ICache BPMeta := (r.st t).ifu.icache

/-- The inputs of the cache in cycle `t`. -/
abbrev cacheIn (t : ℕ) : ICacheIn BPMeta := (r.st t).ifu.icacheIn ((r.st t).ifuIn (r.inp t))

/-- The address of the block being filled. -/
abbrev block (t : ℕ) : Word := (cache r t).memOut.ar.bits.addr

/-- The cache has its address accepted. -/
def Asks (t : ℕ) : Prop := (cache r t).arFire (cacheIn r t) = true

/-- The cache takes a beat. -/
def takes (t : ℕ) : Bool := (cache r t).rFire (cacheIn r t)

/-- A line is marked valid. -/
def Marks (t : ℕ) : Prop := (cache r t).marks (cacheIn r t) = true

/-- The burst asked for in `a` has filled the line marked in `t`: it has had four beats, and
each word is what one of them has written. -/
structure Filled (a t : ℕ) : Prop where
  block : block r a = block r t
  fillCnt : (cache r t).fillCnt = 3
  beats : count (takes r) (a + 1) (t + 1) = 4
  words : ∀ o, ∃ u, a < u ∧ u ≤ t ∧ takes r u = true ∧ (cache r u).fillCnt = o ∧
    (cache r (t + 1)).dataStorage (cache r t).fillIndex o = (cacheIn r u).mem.r.bits.data

/-- **The statement about line fills**: a line that is marked valid has been filled by the burst
asked for last. -/
def LineFills : Prop := ∀ t, Marks r t → ∃ a, LastAt (Asks r) a t ∧ Filled r a t

end Statement

variable {c : Core} {io : In} {b : Option ReadBurst}

/-! ## The slaves of a read -/

/-- A beat that a master takes comes from the slave of the address it has asked for. -/
theorem ReadTrack.port (h : ReadTrack c b) {k : Fin 2}
    (hr : rFire (c.masters k) (c.bus.masterIn (c.busIn io) k) = true) :
    ∃ a, current (c.reading k) (readReq (c.masters k)) = some a ∧
      c.bus.readPath.owner = k ∧ c.bus.readPath.Reaches (candidate slavesMap a) ∧
      (c.bus.masterIn (c.busIn io) k).r = (c.bus.slaveIn (c.busIn io) (candidate slavesMap a)).r := by
  have hk : c.bus.readPath.Connected k := by
    by_contra hk
    have hv := (masterIn_read_of_not_connected (i := c.busIn io) hk).2
    simp [rFire, hv] at hr
  obtain ⟨a, hcur, hport⟩ := current_of_open h.read hk.1
  rw [← hk.2] at hcur
  refine ⟨a, hcur, hk.2.symm, ⟨hk.1, hport⟩, ?_⟩
  rw [(masterIn_read_of_connected (i := c.busIn io) hk).2, hport]
  rfl

theorem slave_cases : ∀ j : Fin (2 + 1), j = 0 ∨ j = 1 ∨ j = 2 := by decide

/-- The slave behind the external port marks the beat of the burst it owes. -/
theorem ReadTrack.last_iff (h : ReadTrack c b) (hb : ReadsInBursts b io)
    (hj : c.bus.readPath.Reaches 0) {a : ReadBurst}
    (ha : c.bursts c.bus.readPath.owner = some a) (hv : io.r.valid = true) :
    io.r.bits.last = true ↔ a.beat = a.ar.len.toNat := by
  obtain ⟨a', ha', hlast⟩ := hb hv
  rw [h.burst, if_pos hj, ha, Option.some_inj] at ha'
  rw [hlast, ha']

/-! ## The invariant -/

/-- Beside the burst of the external port: the error slave is busy with the read on the
path, down to the last beat if the load and store unit has asked, and the cache has had no
beat of the timer. -/
structure SlaveTrack (c : Core) (b : Option ReadBurst) : Prop where
  reads : ReadTrack c b
  error : c.bus.xbar.errSlave.rState = .busy → c.bus.readPath.Reaches 2 ∧
    (c.bus.readPath.owner = 0 → c.bus.xbar.errSlave.rCnt = 0)
  clint : c.ifu.icache.state = .waitMem →
    candidate slavesMap c.ifu.icache.memOut.ar.bits.addr = 1 → c.ifu.icache.fillCnt = 0

/-- After reset no slave owes a burst. -/
theorem SlaveTrack.of_reset (h : c.IsReset) : SlaveTrack c none := by
  have hread := (BusTrack.of_reset h).toRead
  constructor
  · exact hread
  · intro hbusy
    rw [h.bus.xbar.errSlave.rState] at hbusy
    exact absurd hbusy (by decide)
  · intro hw
    rw [h.ifu.icache.state] at hw
    exact absurd hw (by decide)

/-- The load and store unit asks for one beat. -/
theorem SlaveTrack.lsu_last (h : SlaveTrack c b) (hb : ReadsInBursts b io)
    (hr : rFire (c.masters 0) (c.lsuMem io) = true) : (c.lsuMem io).r.bits.last = true := by
  have hst := reading_lsu hr
  obtain ⟨a, -, hown, hj, hport⟩ := h.reads.port hr
  have hv : (c.lsuMem io).r.valid = true := (Bool.and_eq_true_iff.mp hr).1
  rw [lsuMem, hport] at hv ⊢
  rcases slave_cases (candidate slavesMap a) with h0 | h1 | h2
  · rw [h0] at hj hv ⊢
    have hburst : c.bursts c.bus.readPath.owner = some ⟨(c.lsu.memOut c.lsuIn).ar.bits, 0⟩ := by
      rw [hown]
      exact if_pos hst
    exact (h.reads.last_iff hb hj hburst hv).mpr rfl
  · rw [h1]
    rfl
  · rw [h2] at hv ⊢
    have hbusy : c.bus.xbar.errSlave.rState = .busy := of_decide_eq_true hv
    exact decide_eq_true ((h.error hbusy).2 hown)

/-- The last beat of a fill, slave by slave. -/
theorem SlaveTrack.fill_last (h : SlaveTrack c b) (hb : ReadsInBursts b io)
    (hr : rFire (c.masters 1) (c.ifuMem io) = true) :
    (candidate slavesMap c.ifu.icache.memOut.ar.bits.addr = 0 →
      ((c.ifuMem io).r.bits.last = true ↔ c.ifu.icache.fillCnt = 3)) ∧
    (candidate slavesMap c.ifu.icache.memOut.ar.bits.addr = 1 →
      (c.ifuMem io).r.bits.last = true) ∧
    (candidate slavesMap c.ifu.icache.memOut.ar.bits.addr = 2 →
      (c.ifuMem io).r.bits.resp = AXIResp.DECERR) := by
  have hst : c.ifu.icache.state = .waitMem := of_decide_eq_true (Bool.and_eq_true_iff.mp hr).2
  obtain ⟨a, hcur, hown, hj, hport⟩ := h.reads.port hr
  have hv : (c.ifuMem io).r.valid = true := (Bool.and_eq_true_iff.mp hr).1
  rw [ifuMem, hport] at hv ⊢
  rw [← current_cache_read hcur]
  refine ⟨fun h0 => ?_, fun h1 => ?_, fun h2 => ?_⟩
  · rw [h0] at hj hv ⊢
    have hburst : c.bursts c.bus.readPath.owner =
        some ⟨c.ifu.icache.memOut.ar.bits, c.ifu.icache.fillCnt.toNat⟩ := by
      rw [hown]
      exact if_pos hst
    rw [← BitVec.toNat_inj]
    exact h.reads.last_iff hb hj hburst hv
  · rw [h1]
    rfl
  · rw [h2]
    rfl

/-! ### The step -/

/-- The path stays as long as the slave at its end has not given the last beat. -/
theorem readPath_keeps {j : Fin (2 + 1)} (hj : c.bus.readPath.Reaches j)
    (hlast : rLastFire (c.bus.slaveOut (c.busIn io) j) (c.bus.slaveIn (c.busIn io) j) = false) :
    (c.next io).bus.readPath = c.bus.readPath := by
  have hfin : c.bus.readFin (c.busIn io) = false := by
    rw [readSignal_rLastFire.slaveOut, decide_eq_true hj, Bool.true_and] at hlast
    rw [readFin, hlast, Bool.and_false]
  rw [show (c.next io).bus = c.bus.next slavesMap (c.busIn io) from rfl, readPath_next, hfin]
  exact next_of_open hj.1 rfl

/-- The error slave is busy after a cycle with the read on the path. -/
theorem SlaveTrack.error_next (h : SlaveTrack c b)
    (hbusy : (c.next io).bus.xbar.errSlave.rState = .busy) :
    (c.next io).bus.readPath.Reaches 2 ∧
      ((c.next io).bus.readPath.owner = 0 → (c.next io).bus.xbar.errSlave.rCnt = 0) := by
  obtain ⟨e, he⟩ : ∃ e, e = c.bus.xbar.errSlave := ⟨_, rfl⟩
  obtain ⟨o, ho⟩ : ∃ o, o = c.bus.slaveOut (c.busIn io) 2 := ⟨_, rfl⟩
  have hnext : (c.next io).bus.xbar.errSlave = e.next o := by
    rw [he, ho]
    rfl
  have hkeeps : c.bus.readPath.Reaches 2 → rLastFire o e.ioIn = false →
      (c.next io).bus.readPath = c.bus.readPath := by
    intro hj hlast
    rw [he, ho] at hlast
    exact readPath_keeps hj hlast
  rw [hnext] at hbusy ⊢
  cases hst : e.rState with
  | idle =>
      -- an address has come through the path
      have har : arFire o e.ioIn = true := by
        by_contra hno
        rw [Bool.not_eq_true] at hno
        simp [AXI4ErrorSlave.next, hst, hno] at hbusy
      have hj : c.bus.readPath.Reaches 2 := by
        by_contra hj
        rw [ho] at har
        simp [arFire, (slaveOut_read_of_not_reaches (i := c.busIn io) hj).1] at har
      rw [hkeeps hj (by simp [rLastFire, rFire, AXI4ErrorSlave.ioIn, hst])]
      refine ⟨hj, fun hown => ?_⟩
      rw [(AXI4ErrorSlave.next_of_arFire har).2.2, ho,
        (slaveOut_read_of_reaches (i := c.busIn io) hj).1]
      have hmaster : c.bus.readOwner (c.busIn io) = c.masters 0 := congrArg c.masters hown
      rw [hmaster]
      rfl
  | busy =>
      obtain ⟨hj, hcnt⟩ := h.error (he ▸ hst)
      rw [← he] at hcnt
      cases hr : rFire o e.ioIn with
      | true =>
          obtain ⟨-, hstate, -, -⟩ := AXI4ErrorSlave.next_of_rFire hr
          have hne : e.rCnt ≠ 0 := by
            intro h0
            rw [hstate, if_pos h0] at hbusy
            exact absurd hbusy (by decide)
          have hlast : rLastFire o e.ioIn = false := by
            rw [rLastFire, hr, Bool.true_and]
            exact decide_eq_false hne
          rw [hkeeps hj hlast]
          exact ⟨hj, fun hown => absurd (hcnt hown) hne⟩
      | false =>
          rw [hkeeps hj (by rw [rLastFire, hr, Bool.false_and])]
          exact ⟨hj, fun _ => (AXI4ErrorSlave.next_of_stall hst hr).2.2⟩

/-- The timer ends a fill with its first beat. -/
theorem SlaveTrack.clint_next (h : SlaveTrack c b) (hb : ReadsInBursts b io)
    (hw : (c.next io).ifu.icache.state = .waitMem)
    (hroute : candidate slavesMap (c.next io).ifu.icache.memOut.ar.bits.addr = 1) :
    (c.next io).ifu.icache.fillCnt = 0 := by
  obtain ⟨i, hi⟩ : ∃ i, i = c.ifu.icacheIn (c.ifuIn io) := ⟨_, rfl⟩
  have hnext : (c.next io).ifu.icache = c.ifu.icache.next i := by rw [hi]; rfl
  rw [hnext] at hw hroute ⊢
  rcases ICache.state_of_next_waitMem hw with hst | hst
  · have hr := ICache.rFire_eq_false (i := i) (c := c.ifu.icache) (by simp [hst])
    simp [ICache.next, hst, hr, h.reads.fillStart hst]
  · rw [ICache.memOut_arBits_next (ICache.reqFire_eq_false (by simp [hst]))] at hroute
    have hr : c.ifu.icache.rFire i = false := by
      by_contra hr
      rw [Bool.not_eq_false] at hr
      have hfire : rFire (c.masters 1) (c.ifuMem io) = true := by
        rw [hi] at hr
        exact hr
      have hlast := (h.fill_last hb hfire).2.1 hroute
      have hdone : c.ifu.icache.fillDone i = true := by
        rw [ICache.fillDone, hr, Bool.true_and, hi]
        exact hlast
      rw [ICache.next_state_of_waitMem hst, if_pos hdone] at hw
      split_ifs at hw
    simp [ICache.next, hst, hr, h.clint hst hroute]

/-- **The step.** -/
theorem SlaveTrack.next (h : SlaveTrack c b) (hb : ReadsInBursts b io) :
    SlaveTrack (c.next io) (readNext b (c.master io) io) where
  reads := h.reads.next (h.lsu_last hb) hb
  error := h.error_next
  clint := h.clint_next hb

/-! ## Runs -/

section Runs

variable {r : machine.Run} {t : ℕ}

/-- The slaves are tracked along a run. -/
theorem slaveTrack (hext : Compliant r) (t : ℕ) : SlaveTrack (r.st t) (portBurst r t) := by
  induction t with
  | zero => exact SlaveTrack.of_reset r.start
  | succ t ih =>
      rw [r.step t]
      exact ih.next (hext t)

/-- The burst asked for in `a`, before its last beat: what it has written so far. -/
structure Filling (r : machine.Run) (a t : ℕ) : Prop where
  block : block r a = block r t
  beats : count (takes r) (a + 1) t = (cache r t).fillCnt.toNat
  words : ∀ o, o < (cache r t).fillCnt → ∃ u, a < u ∧ u < t ∧ takes r u = true ∧
    (cache r u).fillCnt = o ∧
    (cache r t).dataStorage (cache r t).fillIndex o = (cacheIn r u).mem.r.bits.data

/-- The cache is a part of the core. -/
theorem cache_succ (r : machine.Run) (t : ℕ) : cache r (t + 1) = (cache r t).next (cacheIn r t) := by
  rw [cache, r.step t]
  rfl

/-- The cache keeps its request as long as it is busy with it. -/
theorem block_succ (h : (cache r t).state ≠ .idle) : block r (t + 1) = block r t := by
  rw [block, cache_succ, ICache.memOut_arBits_next (ICache.reqFire_eq_false h)]

/-- The index stays during a fill. -/
theorem fillIndex_succ (h : (cache r t).state ≠ .idle) :
    (cache r (t + 1)).fillIndex = (cache r t).fillIndex := by
  rw [cache_succ, ICache.fillIndex_next (ICache.reqFire_eq_false h)]

/-- A fill asks in `s_fill_addr` only. -/
theorem not_asks (h : (cache r t).state ≠ .fillAddr) : ¬ Asks r t := by
  rw [Asks, ICache.arFire_eq_false h]
  decide

/-- A word is what the beat of its number has written, also after a further beat. -/
theorem words_succ {a : ℕ} (hlt : a < t) (hfill : Filling r a t) (htakes : takes r t = true)
    {o : BitVec 2} (ho : o < (cache r t).fillCnt ∨ o = (cache r t).fillCnt) :
    ∃ u, a < u ∧ u ≤ t ∧ takes r u = true ∧ (cache r u).fillCnt = o ∧
      (cache r (t + 1)).dataStorage (cache r t).fillIndex o = (cacheIn r u).mem.r.bits.data := by
  rw [cache_succ, ICache.next_data_of_rFire htakes]
  rcases ho with ho | rfl
  · obtain ⟨u, hau, hut, hu, hcnt, hdata⟩ := hfill.words o ho
    have hne : o ≠ (cache r t).fillCnt := by
      rintro rfl
      exact absurd ho (by simp)
    refine ⟨u, hau, hut.le, hu, hcnt, ?_⟩
    rw [if_neg fun h => hne h.2, hdata]
  · refine ⟨t, hlt, le_rfl, htakes, rfl, ?_⟩
    rw [if_pos ⟨rfl, rfl⟩]

/-- One cycle of a fill that goes on. -/
theorem Filling.succ {a : ℕ} (hlt : a < t) (hfill : Filling r a t)
    (hst : (cache r t).state = .waitMem) (hcnt : takes r t = true → (cache r t).fillCnt ≠ 3) :
    Filling r a (t + 1) := by
  have hidle : (cache r t).state ≠ .idle := by simp [hst]
  have hcount := count_succ (takes r) (a := a + 1) (t := t) hlt
  have hblock := hfill.block.trans (block_succ hidle).symm
  have hindex := fillIndex_succ hidle
  cases htakes : takes r t with
  | false =>
      -- without a beat the words and the counter stay
      have hr : (cache r t).rFire (cacheIn r t) = false := htakes
      have hsame : (cache r (t + 1)).fillCnt = (cache r t).fillCnt := by
        rw [cache_succ]
        simp [ICache.next, hst, hr]
      refine ⟨hblock, ?_, fun o ho => ?_⟩
      · rw [hcount, htakes, hsame, hfill.beats, Bool.toNat_false, Nat.add_zero]
      · rw [hsame] at ho
        obtain ⟨u, hau, hut, hu, hword, hdata⟩ := hfill.words o ho
        refine ⟨u, hau, by omega, hu, hword, ?_⟩
        rw [hindex, cache_succ, (ICache.next_storage_of_not_rFire hr).1]
        exact hdata
  | true =>
      -- the beat is the word at the counter, and the counter goes on
      have hr : (cache r t).rFire (cacheIn r t) = true := htakes
      have hnext : (cache r (t + 1)).fillCnt = (cache r t).fillCnt + 1 := by
        rw [cache_succ]
        simp [ICache.next, hst, hr]
      have hadd := ICache.fillCnt_add_one (hcnt htakes)
      refine ⟨hblock, ?_, fun o ho => ?_⟩
      · rw [hcount, htakes, hnext, hfill.beats, hadd, Bool.toNat_true]
      · rw [hnext, BitVec.lt_def, hadd] at ho
        have hle : o < (cache r t).fillCnt ∨ o = (cache r t).fillCnt := by
          rw [BitVec.lt_def, ← BitVec.toNat_inj]
          omega
        obtain ⟨u, hau, hut, hu, hword, hdata⟩ := words_succ hlt hfill htakes hle
        refine ⟨u, hau, by omega, hu, hword, ?_⟩
        rw [hindex]
        exact hdata

/-- **A fill from the external port** has written one word for each beat. -/
theorem filling (hext : Compliant r) (t : ℕ) (hst : (cache r t).state = .waitMem)
    (hroute : candidate slavesMap (block r t) = 0) :
    ∃ a, a < t ∧ LastAt (Asks r) a t ∧ Filling r a t := by
  induction t with
  | zero =>
      rw [cache, r.start.ifu.icache.state] at hst
      exact absurd hst (by decide)
  | succ t ih =>
      have hno : ¬ Asks r (t + 1) := not_asks (by simp [hst])
      have htrack := slaveTrack hext t
      rcases ICache.state_of_next_waitMem (cache_succ r t ▸ hst) with hprev | hprev
      · -- the address has just been accepted
        have hasks : Asks r t := by
          by_contra hna
          rw [Asks, Bool.not_eq_true] at hna
          rw [cache_succ, ICache.next_state_of_fillAddr hprev, hna] at hst
          exact absurd hst (by decide)
        have hzero : (cache r (t + 1)).fillCnt = 0 := by
          rw [cache_succ]
          simp [ICache.next, hprev, htrack.reads.fillStart hprev,
            ICache.rFire_eq_false (i := cacheIn r t) (c := cache r t) (by simp [hprev])]
        refine ⟨t, by omega, (LastAt.self hasks).succ hno, ?_, ?_, ?_⟩
        · exact (block_succ (by simp [hprev])).symm
        · rw [count_self, hzero]
          rfl
        · intro o ho
          rw [hzero] at ho
          exact absurd ho (by simp)
      · rw [block_succ (by simp [hprev])] at hroute
        obtain ⟨a, hlt, hlast, hfill⟩ := ih hprev hroute
        refine ⟨a, by omega, hlast.succ hno, hfill.succ hlt hprev fun htakes h3 => ?_⟩
        -- the beat at 3 is the last one, after which the cache does not wait
        have hl := ((htrack.fill_last (hext t) htakes).1 hroute).mpr h3
        have hdone : (cache r t).fillDone (cacheIn r t) = true := by
          rw [ICache.fillDone, show (cache r t).rFire (cacheIn r t) = true from htakes,
            Bool.true_and]
          exact hl
        rw [cache_succ, ICache.next_state_of_waitMem hprev, if_pos hdone] at hst
        split_ifs at hst

/-- A line is marked with the last beat of a fill without an error and a flush. -/
theorem marks_iff : Marks r t ↔ (cache r t).fillDone (cacheIn r t) = true ∧
    (cache r t).fillError (cacheIn r t) = false ∧ (cacheIn r t).flush = false := by
  simp [Marks, ICache.marks, and_assoc]

/-- A line of the external port has been filled when it is marked valid. -/
theorem filled_of_external (hext : Compliant r) (hm : Marks r t)
    (hroute : candidate slavesMap (block r t) = 0) :
    ∃ a, LastAt (Asks r) a t ∧ Filled r a t := by
  obtain ⟨hdone, -, -⟩ := marks_iff.mp hm
  have htakes : takes r t = true := (cache r t).rFire_of_fillDone _ hdone
  have hst := (cache r t).state_of_fillDone _ hdone
  obtain ⟨a, hlt, hlast, hfill⟩ := filling hext t hst hroute
  have h3 : (cache r t).fillCnt = 3 :=
    (((slaveTrack hext t).fill_last (hext t) htakes).1 hroute).mp (Bool.and_eq_true_iff.mp hdone).2
  refine ⟨a, hlast, hfill.block, h3, ?_, fun o => ?_⟩
  · rw [count_succ (takes r) hlt, htakes, hfill.beats, h3]
    rfl
  · refine words_succ hlt hfill htakes ?_
    rw [h3]
    revert o
    decide

/-- **A line is complete when it is marked valid**, if and only if its block is not one of
the timer. -/
theorem filled_iff (hext : Compliant r) (hm : Marks r t) :
    (∃ a, LastAt (Asks r) a t ∧ Filled r a t) ↔ candidate slavesMap (block r t) ≠ 1 := by
  obtain ⟨hdone, herr, -⟩ := marks_iff.mp hm
  have htakes : takes r t = true := (cache r t).rFire_of_fillDone _ hdone
  have htrack := slaveTrack hext t
  constructor
  · rintro ⟨a, -, hfilled⟩ h1
    have hzero := htrack.clint ((cache r t).state_of_fillDone _ hdone) h1
    exact absurd (hzero.symm.trans hfilled.fillCnt) (by decide)
  · intro hne
    rcases slave_cases (candidate slavesMap (block r t)) with h0 | h1 | h2
    · exact filled_of_external hext hm h0
    · exact absurd h1 hne
    · -- the error slave answers with DECERR
      have hresp := (htrack.fill_last (hext t) htakes).2.2 h2
      have hbad : (cache r t).memRespErr (cacheIn r t) = true := by
        rw [ICache.memRespErr, show (cache r t).rFire (cacheIn r t) = true from htakes,
          Bool.true_and]
        refine decide_eq_true fun hok => ?_
        exact absurd (hresp.symm.trans hok) (by decide)
      rw [ICache.fillError, hbad, Bool.or_true] at herr
      exact absurd herr (by decide)

/-- **Line fills of a run**: every line is complete when it is marked valid, if and only if
no block of the timer is filled. -/
theorem lineFills_iff (hext : Compliant r) :
    LineFills r ↔ ∀ t, Marks r t → candidate slavesMap (block r t) ≠ 1 :=
  forall_congr' fun _ => forall_congr' fun hm => filled_iff hext hm

/-! ### A fetch from the timer -/

/-- The memory owes what the port does. -/
theorem memory_reading (r : machine.Run) (t : ℕ) : (memory r t).reading = portBurst r t := by
  induction t with
  | zero => rfl
  | succ t ih =>
      rw [portBurst, Machine.Run.watch_succ, ← portBurst, ← ih]
      rfl

/-- A memory answers in bursts. -/
theorem onMemory_compliant (init : Bytes) : Compliant (onMemory init) := by
  intro t
  rw [← memory_reading, onMemory_inp]
  exact (Memory.respond_answers _ _ {}).bursts

/-- A program that jumps to the registers of the timer. -/
def jumpToTimer : Word → Word := fun a =>
  if a = 0x30000000 then 0x020000b7       -- lui x1, 0x2000
  else if a = 0x30000004 then 0x00008067  -- jalr x0, 0(x1)
  else 0x00000013

/-- The line it fetches last is marked valid with one word. -/
theorem jumpToTimer_marks : Marks (onMemory (ofWords jumpToTimer)) 24 ∧
    candidate slavesMap (block (onMemory (ofWords jumpToTimer)) 24) = 1 :=
  onMemory_check_inp (P := fun c io => c.ifu.icache.marks (c.ifu.icacheIn (c.ifuIn io)) = true ∧
    candidate slavesMap c.ifu.icache.memOut.ar.bits.addr = 1) (by decide +kernel)

/-- A jump to the timer makes a line valid after a single beat. -/
theorem jumpToTimer_not_lineFills : ¬ ∀ r : machine.Run, Compliant r → LineFills r := by
  intro h
  have hext := onMemory_compliant (ofWords jumpToTimer)
  obtain ⟨hm, h1⟩ := jumpToTimer_marks
  exact (filled_iff hext hm).mp (h _ hext 24 hm) h1

/-- So the lines of its run are not all complete. -/
theorem jumpToTimer_incomplete : ¬ LineFills (onMemory (ofWords jumpToTimer)) := by
  rw [lineFills_iff (onMemory_compliant _)]
  intro h
  exact h 24 jumpToTimer_marks.1 jumpToTimer_marks.2

end Runs

end Core

end Bailuwan
