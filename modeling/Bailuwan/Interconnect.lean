/-
# The interconnect: the arbiter followed by the crossbar

The wiring of `Core.scala` between the bus masters and the slaves.  What a port has
accepted and not finished is recorded by a log that follows its handshakes
(`PortLog`); the assumptions on the masters and slaves are about those logs.

The main theorem, `isolated`, says that in every cycle the handshakes at the slave
ports are the handshakes of the masters, channel by channel and with the same
payload, each at the port its own address decodes to.
-/
import Mathlib.Tactic.IntervalCases
import Bailuwan.BusPath
import Bailuwan.MemoryMap
import Bailuwan.Synchronous

namespace Bailuwan

open Synchronous AXI4 BusPath

/-! ## The model -/

/-- The registers of the arbiter and the crossbar. -/
structure Interconnect (n m : ℕ) where
  arbiter : AXI4Arbiter (n + 1)
  xbar : AXI4CrossBar m
  deriving DecidableEq, Repr

/-- What the masters and the slaves drive in one cycle. -/
structure BusIn (n m : ℕ) where
  masters : Fin (n + 1) → Out
  slaves : Fin m → In

namespace Interconnect

variable {n m : ℕ} (slavesMap : SlavesMap m) (s : Interconnect n m) (i : BusIn n m)

/-- What reset fixes. -/
structure IsReset : Prop where
  arbiter : s.arbiter = AXI4Arbiter.reset
  xbar : s.xbar.IsReset

/-- What the crossbar sees in `arbiter.io.slave <> xbar.io.master`. -/
def linkOut : Out := s.arbiter.slaveOut i.masters

/-- What the arbiter sees of the crossbar. -/
def linkIn : In := s.xbar.masterIn i.slaves

/-- What master `k` sees. -/
def masterIn (k : Fin (n + 1)) : In := s.arbiter.masterIn (s.linkIn i) k

/-- What slave `j` sees; the error slave is the last one. -/
def slaveOut (j : Fin (m + 1)) : Out := s.xbar.slaveOut (s.linkOut i) j

/-- What slave `j` drives. -/
def slaveIn (j : Fin (m + 1)) : In := s.xbar.slaveIn i.slaves j

/-- The clock edge. -/
def next : Interconnect n m where
  arbiter := s.arbiter.next i.masters (s.linkIn i)
  xbar := s.xbar.next slavesMap (s.linkOut i) i.slaves

/-- The arbiter and the crossbar as a synchronous machine. -/
def machine (n : ℕ) : Machine (Interconnect n m) (BusIn n m) where
  init := IsReset
  next := next slavesMap

/-! ## Logs of the ports -/

/-- What a port has accepted and not finished: the addresses of the reads and the
writes, oldest first, and whether the data of the write is complete. -/
structure PortLog where
  reads : List Word := []
  writes : List Word := []
  dataDone : Bool := false

/-- The address of the read that is asked for. -/
def readReq (o : Out) : Option Word := if o.ar.valid then some o.ar.bits.addr else none

/-- The address of the write that is asked for. -/
def writeReq (o : Out) : Option Word := if o.aw.valid then some o.aw.bits.addr else none

/-- The account of a port after a cycle. -/
def PortLog.next (l : PortLog) (o : Out) (i : In) : PortLog where
  reads := pendingNext l.reads (arFire o i) (readReq o) (rLastFire o i)
  writes := pendingNext l.writes (awFire o i) (writeReq o) (bFire o i)
  dataDone := if bFire o i then false else l.dataDone || wLastFire o i

variable {slavesMap}

/-- The log of master `k`. -/
def masterLog (r : (machine slavesMap n).Run) (k : Fin (n + 1)) : ℕ → PortLog :=
  r.watch {} fun l s i => l.next (i.masters k) (s.masterIn i k)

/-- The log of slave `j`. -/
def slaveLog (r : (machine slavesMap n).Run) (j : Fin (m + 1)) : ℕ → PortLog :=
  r.watch {} fun l s i => l.next (s.slaveOut i j) (s.slaveIn i j)

/-! ## Assumptions -/

/-- In cycle `t` the masters begin at most one read and one write at a time, hold a
request until it is accepted, and take read data only after the address was accepted. -/
structure MastersBehave (r : (machine slavesMap n).Run) (t : ℕ) : Prop where
  oneRead : ∀ k, arFire ((r.inp t).masters k) ((r.st t).masterIn (r.inp t) k) = true →
    (masterLog r k t).reads = []
  oneWrite : ∀ k, awFire ((r.inp t).masters k) ((r.st t).masterIn (r.inp t) k) = true →
    (masterLog r k t).writes = []
  holdsRead : ∀ k, ((r.inp t).masters k).ar.valid = true →
    ((r.st t).masterIn (r.inp t) k).arReady = false →
    ((r.inp (t + 1)).masters k).ar = ((r.inp t).masters k).ar
  holdsWrite : ∀ k, ((r.inp t).masters k).aw.valid = true →
    ((r.st t).masterIn (r.inp t) k).awReady = false →
    ((r.inp (t + 1)).masters k).aw = ((r.inp t).masters k).aw
  readyAfterAddress : ∀ k, ((r.inp t).masters k).rReady = true → (masterLog r k t).reads ≠ []

/-- In cycle `t` the slaves respond to a write only after its address and its last beat. -/
def SlavesBehave (r : (machine slavesMap n).Run) (t : ℕ) : Prop :=
  ∀ j, ((r.inp t).slaves j).b.valid = true →
    (slaveLog r j.castSucc t).writes ≠ [] ∧ (slaveLog r j.castSucc t).dataDone = true

/-! ## Isolation -/

/-- **Isolation in cycle `t`**: on every channel the handshakes of the masters and of
the slaves correspond one to one with equal payloads, each slave being the one that the
master's own address selects, and no slave has more than one transaction of a kind. -/
structure Isolated (r : (machine slavesMap n).Run) (t : ℕ) : Prop where
  readAddr : Carries (fun k => arFire ((r.inp t).masters k) ((r.st t).masterIn (r.inp t) k))
    (fun j => arFire ((r.st t).slaveOut (r.inp t) j) ((r.st t).slaveIn (r.inp t) j))
    fun k j => ((r.st t).slaveOut (r.inp t) j).ar.bits = ((r.inp t).masters k).ar.bits ∧
      candidate slavesMap ((r.inp t).masters k).ar.bits.addr = j
  readData : Carries (fun k => rFire ((r.inp t).masters k) ((r.st t).masterIn (r.inp t) k))
    (fun j => rFire ((r.st t).slaveOut (r.inp t) j) ((r.st t).slaveIn (r.inp t) j))
    fun k j => ((r.st t).masterIn (r.inp t) k).r.bits = ((r.st t).slaveIn (r.inp t) j).r.bits ∧
      ∃ a, (masterLog r k t).reads = [a] ∧ (slaveLog r j t).reads = [a] ∧
        candidate slavesMap a = j
  writeAddr : Carries (fun k => awFire ((r.inp t).masters k) ((r.st t).masterIn (r.inp t) k))
    (fun j => awFire ((r.st t).slaveOut (r.inp t) j) ((r.st t).slaveIn (r.inp t) j))
    fun k j => ((r.st t).slaveOut (r.inp t) j).aw.bits = ((r.inp t).masters k).aw.bits ∧
      candidate slavesMap ((r.inp t).masters k).aw.bits.addr = j
  writeData : Carries (fun k => wFire ((r.inp t).masters k) ((r.st t).masterIn (r.inp t) k))
    (fun j => wFire ((r.st t).slaveOut (r.inp t) j) ((r.st t).slaveIn (r.inp t) j))
    fun k j => ((r.st t).slaveOut (r.inp t) j).w.bits = ((r.inp t).masters k).w.bits ∧
      ∃ a, current (masterLog r k t).writes (writeReq ((r.inp t).masters k)) = some a ∧
        candidate slavesMap a = j
  writeResp : Carries (fun k => bFire ((r.inp t).masters k) ((r.st t).masterIn (r.inp t) k))
    (fun j => bFire ((r.st t).slaveOut (r.inp t) j) ((r.st t).slaveIn (r.inp t) j))
    fun k j => ((r.st t).masterIn (r.inp t) k).b.bits = ((r.st t).slaveIn (r.inp t) j).b.bits ∧
      (masterLog r k t).dataDone = true ∧
      ∃ a, (masterLog r k t).writes = [a] ∧ (slaveLog r j t).writes = [a] ∧
        candidate slavesMap a = j
  oneRead : ∀ j, (slaveLog r j t).reads.length ≤ 1
  oneWrite : ∀ j, (slaveLog r j t).writes.length ≤ 1

/-! ## The two paths -/

/-- The registers of the two stages that carry reads. -/
def readPath : BusPath n m :=
  ⟨s.arbiter.rState, s.arbiter.rOwnerId, s.xbar.rState, s.xbar.rOwnerId⟩

/-- The registers of the two stages that carry writes. -/
def writePath : BusPath n m :=
  ⟨s.arbiter.wState, s.arbiter.wOwnerId, s.xbar.wState, s.xbar.wOwnerId⟩

/-- The owner of the read path. -/
def readOwner : Out := i.masters s.arbiter.rOwnerId

/-- The port that the read path leads to. -/
def readPort : In := s.slaveIn i s.xbar.rOwnerId

/-- The master that the write path comes from. -/
def writeOwner : Out := i.masters s.arbiter.wOwnerId

/-- The port that the write path leads to. -/
def writePort : In := s.slaveIn i s.xbar.wOwnerId

variable {s i}

/-- A master that is connected sees the read port. -/
theorem masterIn_read_of_connected {k : Fin (n + 1)} (h : s.readPath.Connected k) :
    (s.masterIn i k).arReady = (s.readPort i).arReady ∧ (s.masterIn i k).r = (s.readPort i).r := by
  obtain ⟨⟨h1, h2⟩, h3⟩ := h
  have h1' : s.arbiter.rState = .busy := h1
  have h2' : s.xbar.rState = .busy := h2
  have h3' : k = s.arbiter.rOwnerId := h3
  simp [masterIn, linkIn, AXI4Arbiter.masterIn, AXI4CrossBar.masterIn, h1', h2', h3', readPort,
    slaveIn]

/-- A master that is not connected sees no read. -/
theorem masterIn_read_of_not_connected {k : Fin (n + 1)} (h : ¬ s.readPath.Connected k) :
    (s.masterIn i k).arReady = false ∧ (s.masterIn i k).r.valid = false := by
  have h' : ¬ ((s.arbiter.rState = .busy ∧ s.xbar.rState = .busy) ∧ k = s.arbiter.rOwnerId) := h
  simp only [masterIn, linkIn, AXI4Arbiter.masterIn, AXI4CrossBar.masterIn]
  split_ifs with h1 h2 <;> first | exact ⟨rfl, rfl⟩ | exact absurd ⟨⟨h1.1, h2⟩, h1.2⟩ h'

/-- A slave that is reached sees the owner of the read path. -/
theorem slaveOut_read_of_reaches {j : Fin (m + 1)} (h : s.readPath.Reaches j) :
    (s.slaveOut i j).ar = (s.readOwner i).ar ∧
      (s.slaveOut i j).rReady = (s.readOwner i).rReady := by
  obtain ⟨⟨h1, h2⟩, h3⟩ := h
  have h1' : s.arbiter.rState = .busy := h1
  have h2' : s.xbar.rState = .busy := h2
  have h3' : j = s.xbar.rOwnerId := h3
  simp [slaveOut, linkOut, AXI4Arbiter.slaveOut, AXI4CrossBar.slaveOut, h1', h2', h3', readOwner]

/-- A slave that is not reached sees no read. -/
theorem slaveOut_read_of_not_reaches {j : Fin (m + 1)} (h : ¬ s.readPath.Reaches j) :
    (s.slaveOut i j).ar.valid = false ∧ (s.slaveOut i j).rReady = false := by
  have h' : ¬ ((s.arbiter.rState = .busy ∧ s.xbar.rState = .busy) ∧ j = s.xbar.rOwnerId) := h
  simp only [slaveOut, linkOut, AXI4Arbiter.slaveOut, AXI4CrossBar.slaveOut]
  split_ifs with h1 h2 <;> first | exact ⟨rfl, rfl⟩ | exact absurd ⟨⟨h2, h1.1⟩, h1.2⟩ h'

/-- A master that is connected sees the write port. -/
theorem masterIn_write_of_connected {k : Fin (n + 1)} (h : s.writePath.Connected k) :
    (s.masterIn i k).awReady = (s.writePort i).awReady ∧
      (s.masterIn i k).wReady = (s.writePort i).wReady ∧
      (s.masterIn i k).b = (s.writePort i).b := by
  obtain ⟨⟨h1, h2⟩, h3⟩ := h
  have h1' : s.arbiter.wState = .busy := h1
  have h2' : s.xbar.wState = .busy := h2
  have h3' : k = s.arbiter.wOwnerId := h3
  simp [masterIn, linkIn, AXI4Arbiter.masterIn, AXI4CrossBar.masterIn, h1', h2', h3', writePort,
    slaveIn]

/-- A master that is not connected sees no write. -/
theorem masterIn_write_of_not_connected {k : Fin (n + 1)} (h : ¬ s.writePath.Connected k) :
    (s.masterIn i k).awReady = false ∧ (s.masterIn i k).wReady = false ∧
      (s.masterIn i k).b.valid = false := by
  have h' : ¬ ((s.arbiter.wState = .busy ∧ s.xbar.wState = .busy) ∧ k = s.arbiter.wOwnerId) := h
  simp only [masterIn, linkIn, AXI4Arbiter.masterIn, AXI4CrossBar.masterIn]
  split_ifs with h1 h2 <;> first | exact ⟨rfl, rfl, rfl⟩ | exact absurd ⟨⟨h1.1, h2⟩, h1.2⟩ h'

/-- A slave that is reached sees the owner of the write path. -/
theorem slaveOut_write_of_reaches {j : Fin (m + 1)} (h : s.writePath.Reaches j) :
    (s.slaveOut i j).aw = (s.writeOwner i).aw ∧ (s.slaveOut i j).w = (s.writeOwner i).w ∧
      (s.slaveOut i j).bReady = (s.writeOwner i).bReady := by
  obtain ⟨⟨h1, h2⟩, h3⟩ := h
  have h1' : s.arbiter.wState = .busy := h1
  have h2' : s.xbar.wState = .busy := h2
  have h3' : j = s.xbar.wOwnerId := h3
  simp [slaveOut, linkOut, AXI4Arbiter.slaveOut, AXI4CrossBar.slaveOut, h1', h2', h3', writeOwner]

/-- A slave that is not reached sees no write. -/
theorem slaveOut_write_of_not_reaches {j : Fin (m + 1)} (h : ¬ s.writePath.Reaches j) :
    (s.slaveOut i j).aw.valid = false ∧ (s.slaveOut i j).w.valid = false ∧
      (s.slaveOut i j).bReady = false := by
  have h' : ¬ ((s.arbiter.wState = .busy ∧ s.xbar.wState = .busy) ∧ j = s.xbar.wOwnerId) := h
  simp only [slaveOut, linkOut, AXI4Arbiter.slaveOut, AXI4CrossBar.slaveOut]
  split_ifs with h1 h2 <;> first | exact ⟨rfl, rfl, rfl⟩ | exact absurd ⟨⟨h2, h1.1⟩, h1.2⟩ h'

/-! ### Handshakes are those of the open path -/

/-- A signal of the read channels, low at a blocked master and at a blocked slave. -/
structure ReadSignal (f : Out → In → Bool) : Prop where
  congr : ∀ {o o' : Out} {i i' : In}, o.ar = o'.ar → o.rReady = o'.rReady →
    i.arReady = i'.arReady → i.r = i'.r → f o i = f o' i'
  masterBlocked : ∀ {o : Out} {i : In}, i.arReady = false → i.r.valid = false → f o i = false
  slaveBlocked : ∀ {o : Out} {i : In}, o.ar.valid = false → o.rReady = false → f o i = false

/-- A signal of the write channels, low at a blocked master and at a blocked slave. -/
structure WriteSignal (f : Out → In → Bool) : Prop where
  congr : ∀ {o o' : Out} {i i' : In}, o.aw = o'.aw → o.w = o'.w → o.bReady = o'.bReady →
    i.awReady = i'.awReady → i.wReady = i'.wReady → i.b = i'.b → f o i = f o' i'
  masterBlocked : ∀ {o : Out} {i : In}, i.awReady = false → i.wReady = false →
    i.b.valid = false → f o i = false
  slaveBlocked : ∀ {o : Out} {i : In}, o.aw.valid = false → o.w.valid = false →
    o.bReady = false → f o i = false

/-- The address of a read passes on the read path. -/
theorem readSignal_arFire : ReadSignal arFire :=
  ⟨fun h1 _ h3 _ => by simp [arFire, h1, h3], fun h1 _ => by simp [arFire, h1],
    fun h1 _ => by simp [arFire, h1]⟩

/-- A beat passes on the read path. -/
theorem readSignal_rFire : ReadSignal rFire :=
  ⟨fun _ h2 _ h4 => by simp [rFire, h2, h4], fun _ h2 => by simp [rFire, h2],
    fun _ h2 => by simp [rFire, h2]⟩

/-- The last beat passes on the read path. -/
theorem readSignal_rLastFire : ReadSignal rLastFire :=
  ⟨fun _ h2 _ h4 => by simp [rLastFire, rFire, h2, h4],
    fun _ h2 => by simp [rLastFire, rFire, h2], fun _ h2 => by simp [rLastFire, rFire, h2]⟩

/-- The address of a write passes on the write path. -/
theorem writeSignal_awFire : WriteSignal awFire :=
  ⟨fun h1 _ _ h4 _ _ => by simp [awFire, h1, h4], fun h1 _ _ => by simp [awFire, h1],
    fun h1 _ _ => by simp [awFire, h1]⟩

/-- Data pass on the write path. -/
theorem writeSignal_wFire : WriteSignal wFire :=
  ⟨fun _ h2 _ _ h5 _ => by simp [wFire, h2, h5], fun _ h2 _ => by simp [wFire, h2],
    fun _ h2 _ => by simp [wFire, h2]⟩

/-- The last data pass on the write path. -/
theorem writeSignal_wLastFire : WriteSignal wLastFire :=
  ⟨fun _ h2 _ _ h5 _ => by simp [wLastFire, wFire, h2, h5],
    fun _ h2 _ => by simp [wLastFire, wFire, h2], fun _ h2 _ => by simp [wLastFire, wFire, h2]⟩

/-- A response passes on the write path. -/
theorem writeSignal_bFire : WriteSignal bFire :=
  ⟨fun _ _ h3 _ _ h6 => by simp [bFire, h3, h6], fun _ _ h3 => by simp [bFire, h3],
    fun _ _ h3 => by simp [bFire, h3]⟩

/-- A signal of a read, seen by a master. -/
theorem ReadSignal.masterIn {f : Out → In → Bool} (h : ReadSignal f) (k : Fin (n + 1)) :
    f (i.masters k) (s.masterIn i k) =
      (decide (s.readPath.Connected k) && f (s.readOwner i) (s.readPort i)) := by
  by_cases hk : s.readPath.Connected k
  · have ho : i.masters k = s.readOwner i := congrArg i.masters hk.2
    obtain ⟨h1, h2⟩ := masterIn_read_of_connected (i := i) hk
    rw [decide_eq_true hk, Bool.true_and, ho]
    exact h.congr rfl rfl h1 h2
  · obtain ⟨h1, h2⟩ := masterIn_read_of_not_connected (i := i) hk
    rw [decide_eq_false hk, Bool.false_and]
    exact h.masterBlocked h1 h2

/-- A signal of a read, seen by a slave. -/
theorem ReadSignal.slaveOut {f : Out → In → Bool} (h : ReadSignal f) (j : Fin (m + 1)) :
    f (s.slaveOut i j) (s.slaveIn i j) =
      (decide (s.readPath.Reaches j) && f (s.readOwner i) (s.readPort i)) := by
  by_cases hj : s.readPath.Reaches j
  · have hp : s.slaveIn i j = s.readPort i := congrArg (s.slaveIn i) hj.2
    obtain ⟨h1, h2⟩ := slaveOut_read_of_reaches (i := i) hj
    rw [decide_eq_true hj, Bool.true_and, hp]
    exact h.congr h1 h2 rfl rfl
  · obtain ⟨h1, h2⟩ := slaveOut_read_of_not_reaches (i := i) hj
    rw [decide_eq_false hj, Bool.false_and]
    exact h.slaveBlocked h1 h2

/-- A signal of a write, seen by a master. -/
theorem WriteSignal.masterIn {f : Out → In → Bool} (h : WriteSignal f) (k : Fin (n + 1)) :
    f (i.masters k) (s.masterIn i k) =
      (decide (s.writePath.Connected k) && f (s.writeOwner i) (s.writePort i)) := by
  by_cases hk : s.writePath.Connected k
  · have ho : i.masters k = s.writeOwner i := congrArg i.masters hk.2
    obtain ⟨h1, h2, h3⟩ := masterIn_write_of_connected (i := i) hk
    rw [decide_eq_true hk, Bool.true_and, ho]
    exact h.congr rfl rfl rfl h1 h2 h3
  · obtain ⟨h1, h2, h3⟩ := masterIn_write_of_not_connected (i := i) hk
    rw [decide_eq_false hk, Bool.false_and]
    exact h.masterBlocked h1 h2 h3

/-- A signal of a write, seen by a slave. -/
theorem WriteSignal.slaveOut {f : Out → In → Bool} (h : WriteSignal f) (j : Fin (m + 1)) :
    f (s.slaveOut i j) (s.slaveIn i j) =
      (decide (s.writePath.Reaches j) && f (s.writeOwner i) (s.writePort i)) := by
  by_cases hj : s.writePath.Reaches j
  · have hp : s.slaveIn i j = s.writePort i := congrArg (s.slaveIn i) hj.2
    obtain ⟨h1, h2, h3⟩ := slaveOut_write_of_reaches (i := i) hj
    rw [decide_eq_true hj, Bool.true_and, hp]
    exact h.congr h1 h2 h3 rfl rfl rfl
  · obtain ⟨h1, h2, h3⟩ := slaveOut_write_of_not_reaches (i := i) hj
    rw [decide_eq_false hj, Bool.false_and]
    exact h.slaveBlocked h1 h2 h3

/-! ### The registers follow the path -/

/-- A read transaction begins on the path in this cycle. -/
def readStart (s : Interconnect n m) (i : BusIn n m) : Bool :=
  decide s.readPath.Open && arFire (s.readOwner i) (s.readPort i)

/-- The read transaction on the path ends in this cycle. -/
def readFin (s : Interconnect n m) (i : BusIn n m) : Bool :=
  decide s.readPath.Open && rLastFire (s.readOwner i) (s.readPort i)

/-- A write transaction begins on the path in this cycle. -/
def writeStart (s : Interconnect n m) (i : BusIn n m) : Bool :=
  decide s.writePath.Open && awFire (s.writeOwner i) (s.writePort i)

/-- The write transaction on the path ends in this cycle. -/
def writeFin (s : Interconnect n m) (i : BusIn n m) : Bool :=
  decide s.writePath.Open && bFire (s.writeOwner i) (s.writePort i)

theorem readReq_isSome (o : Out) : (readReq o).isSome = o.ar.valid := by
  cases h : o.ar.valid <;> simp [readReq, h]

theorem writeReq_isSome (o : Out) : (writeReq o).isSome = o.aw.valid := by
  cases h : o.aw.valid <;> simp [writeReq, h]

/-- The crossbar sees the request of the owner of the arbiter. -/
theorem seen_readPath :
    s.readPath.seen (fun k => readReq (i.masters k)) = readReq (s.linkOut i) := by
  cases ha : s.arbiter.rState <;>
    simp [seen, readPath, linkOut, AXI4Arbiter.slaveOut, readReq, ha]

/-- The write path sees what the crossbar is asked for. -/
theorem seen_writePath :
    s.writePath.seen (fun k => writeReq (i.masters k)) = writeReq (s.linkOut i) := by
  cases ha : s.arbiter.wState <;>
    simp [seen, writePath, linkOut, AXI4Arbiter.slaveOut, writeReq, ha]

/-- The read path in the next cycle. -/
theorem readPath_next : (s.next slavesMap i).readPath =
    s.readPath.next (candidate slavesMap) (fun k => readReq (i.masters k)) (s.readFin i) := by
  have hm : rLastFire (i.masters s.arbiter.rOwnerId)
      (s.arbiter.masterIn (s.linkIn i) s.arbiter.rOwnerId) = s.readFin i := by
    refine (readSignal_rLastFire.masterIn (s := s) s.readPath.owner).trans ?_
    simp only [connected_owner, readFin]
  have hs : rLastFire (s.xbar.slaveOut (s.linkOut i) s.xbar.rOwnerId)
      (s.xbar.slaveIn i.slaves s.xbar.rOwnerId) = s.readFin i := by
    refine (readSignal_rLastFire.slaveOut (s := s) s.readPath.port).trans ?_
    simp only [reaches_port, readFin]
  ext1
  · simp only [readPath, next, AXI4Arbiter.next, BusPath.next, hm, readReq_isSome]
    cases s.arbiter.rState <;> rfl
  · simp only [readPath, next, AXI4Arbiter.next, BusPath.next, readReq_isSome]
  · simp only [BusPath.next, seen_readPath, readReq_isSome]
    cases hx : s.xbar.rState <;> simp only [readPath, next, AXI4CrossBar.next, hs, hx]
  · simp only [BusPath.next, seen_readPath]
    simp only [readPath, next, AXI4CrossBar.next, readReq]
    cases s.xbar.rState <;> cases (s.linkOut i).ar.valid <;> simp

/-- The write path in the next cycle. -/
theorem writePath_next : (s.next slavesMap i).writePath =
    s.writePath.next (candidate slavesMap) (fun k => writeReq (i.masters k)) (s.writeFin i) := by
  have hm : bFire (i.masters s.arbiter.wOwnerId)
      (s.arbiter.masterIn (s.linkIn i) s.arbiter.wOwnerId) = s.writeFin i := by
    refine (writeSignal_bFire.masterIn (s := s) s.writePath.owner).trans ?_
    simp only [connected_owner, writeFin]
  have hs : bFire (s.xbar.slaveOut (s.linkOut i) s.xbar.wOwnerId)
      (s.xbar.slaveIn i.slaves s.xbar.wOwnerId) = s.writeFin i := by
    refine (writeSignal_bFire.slaveOut (s := s) s.writePath.port).trans ?_
    simp only [reaches_port, writeFin]
  ext1
  · simp only [writePath, next, AXI4Arbiter.next, BusPath.next, hm, writeReq_isSome]
    cases s.arbiter.wState <;> rfl
  · simp only [writePath, next, AXI4Arbiter.next, BusPath.next, writeReq_isSome]
  · simp only [BusPath.next, seen_writePath, writeReq_isSome]
    cases hx : s.xbar.wState <;> simp only [writePath, next, AXI4CrossBar.next, hs, hx]
  · simp only [BusPath.next, seen_writePath]
    simp only [writePath, next, AXI4CrossBar.next, writeReq]
    cases s.xbar.wState <;> cases (s.linkOut i).aw.valid <;> simp

/-! ## The error slave follows its log -/

/-- The error slave responds to a write after its address and its last beat. -/
def Follows (e : AXI4ErrorSlave) (l : PortLog) : Prop :=
  match e.wState with
  | .idle => l.writes = [] ∧ l.dataDone = false
  | .waitData => l.writes.length = 1 ∧ l.dataDone = false
  | .resp => l.writes.length = 1 ∧ l.dataDone = true

/-- A slave for errors follows the log of its port. -/
theorem Follows.next {e : AXI4ErrorSlave} {l : PortLog} (h : Follows e l) (o : Out) :
    Follows (e.next o) (l.next o e.ioIn) := by
  cases hs : e.wState with
  | idle =>
      simp only [Follows, hs] at h
      cases hv : o.aw.valid <;>
        simp [Follows, AXI4ErrorSlave.next, AXI4ErrorSlave.ioIn, PortLog.next, pendingNext,
          awFire, wFire, wLastFire, bFire, writeReq, hs, hv, h.1, h.2]
  | waitData =>
      simp only [Follows, hs] at h
      cases hw : o.w.valid <;> cases hl : o.w.bits.last <;>
        simp [Follows, AXI4ErrorSlave.next, AXI4ErrorSlave.ioIn, PortLog.next, pendingNext,
          awFire, wFire, wLastFire, bFire, hs, hw, hl, h.1, h.2]
  | resp =>
      simp only [Follows, hs] at h
      have htail : l.writes.tail = [] := by
        rw [← List.length_eq_zero_iff, List.length_tail, h.1]
      cases hb : o.bReady <;>
        simp [Follows, AXI4ErrorSlave.next, AXI4ErrorSlave.ioIn, PortLog.next, pendingNext,
          awFire, wFire, wLastFire, bFire, hs, hb, h.1, h.2, htail]

/-! ## The invariant of the interconnect -/

/-- Both paths keep the invariant of a path, what the masters have begun is mirrored at
the slaves and the error slave follows its log. -/
structure BusInv (r : (machine slavesMap n).Run) (t : ℕ) : Prop where
  read : BusPath.Inv (candidate slavesMap) (r.st t).readPath (fun k => (masterLog r k t).reads)
    fun k => readReq ((r.inp t).masters k)
  reads : ∀ j, Mirrors (r.st t).readPath [] (fun k => (masterLog r k t).reads) j
    (slaveLog r j t).reads
  write : BusPath.Inv (candidate slavesMap) (r.st t).writePath
    (fun k => (masterLog r k t).writes) fun k => writeReq ((r.inp t).masters k)
  writes : ∀ j, Mirrors (r.st t).writePath [] (fun k => (masterLog r k t).writes) j
    (slaveLog r j t).writes
  quietData : Quiet (r.st t).writePath false fun k => (masterLog r k t).dataDone
  data : ∀ j, Mirrors (r.st t).writePath false (fun k => (masterLog r k t).dataDone) j
    (slaveLog r j t).dataDone
  errSlave : Follows (r.st t).xbar.errSlave (slaveLog r (Fin.last m) t)

variable {r : (machine slavesMap n).Run} {t : ℕ}

/-- After reset every log is empty. -/
theorem busInv_zero (r : (machine slavesMap n).Run) : BusInv r 0 := by
  have harb : (r.st 0).arbiter = AXI4Arbiter.reset := r.start.arbiter
  have hr : (r.st 0).readPath.arb = .idle := by simp [readPath, harb, AXI4Arbiter.reset]
  have hw : (r.st 0).writePath.arb = .idle := by simp [writePath, harb, AXI4Arbiter.reset]
  have hxr : (r.st 0).xbar.rState = .idle := r.start.xbar.rState
  have hxw : (r.st 0).xbar.wState = .idle := r.start.xbar.wState
  have hwclosed : ¬ (r.st 0).writePath.Open := fun h => absurd (hw.symm.trans h.1) (by decide)
  have hrclosed : ¬ (r.st 0).readPath.Open := fun h => absurd (hr.symm.trans h.1) (by decide)
  refine ⟨⟨fun _ => hxr, fun _ => by simp [masterLog], fun _ _ => rfl, fun h => ?_⟩, fun j => ?_,
    ⟨fun _ => hxw, fun _ => by simp [masterLog], fun _ _ => rfl, fun h => ?_⟩, fun j => ?_,
    fun _ _ => rfl, fun j => ?_, ?_⟩
  · exact absurd (hr.symm.trans h) (by decide)
  · exact ⟨fun hj => absurd hj.1 hrclosed, fun _ => rfl⟩
  · exact absurd (hw.symm.trans h) (by decide)
  · exact ⟨fun hj => absurd hj.1 hwclosed, fun _ => rfl⟩
  · exact ⟨fun hj => absurd hj.1 hwclosed, fun _ => rfl⟩
  · simp [Follows, r.start.xbar.errSlave.wState, slaveLog]

/-- A slave that responds to a write has accepted its address and its last beat. -/
theorem BusInv.writePort_done (h : BusInv r t) (hs : SlavesBehave r t) (j : Fin (m + 1))
    (hb : ((r.st t).slaveIn (r.inp t) j).b.valid = true) :
    (slaveLog r j t).writes ≠ [] ∧ (slaveLog r j t).dataDone = true := by
  induction j using Fin.lastCases with
  | cast j =>
      have hext : (r.st t).slaveIn (r.inp t) j.castSucc = (r.inp t).slaves j := by
        simp [slaveIn, AXI4CrossBar.slaveIn]
      rw [hext] at hb
      exact hs j hb
  | last =>
      have herr : (r.st t).slaveIn (r.inp t) (Fin.last m) = (r.st t).xbar.errSlave.ioIn := by
        simp [slaveIn, AXI4CrossBar.slaveIn]
      rw [herr] at hb
      have hstate : (r.st t).xbar.errSlave.wState = .resp := by
        simpa [AXI4ErrorSlave.ioIn] using hb
      have hf := h.errSlave
      simp only [Follows, hstate] at hf
      exact ⟨List.ne_nil_of_length_eq_add_one hf.1, hf.2⟩

/-! ### The cycles of the two paths -/

/-- The handshakes of a master are those of the path it owns. -/
theorem master_arFire (k : Fin (n + 1)) : arFire (i.masters k) (s.masterIn i k) =
    (decide (k = s.readPath.owner) && s.readStart i) := by
  rw [readSignal_arFire.masterIn, readStart, ← Bool.and_assoc, ← Bool.decide_and]
  simp only [Connected, and_comm]

/-- The write address of the owner is taken when a write starts. -/
theorem master_awFire (k : Fin (n + 1)) : awFire (i.masters k) (s.masterIn i k) =
    (decide (k = s.writePath.owner) && s.writeStart i) := by
  rw [writeSignal_awFire.masterIn, writeStart, ← Bool.and_assoc, ← Bool.decide_and]
  simp only [Connected, and_comm]

/-- What a master has begun follows the path it is connected to. -/
theorem pendingNext_reads (q : List Word) (k : Fin (n + 1)) :
    pendingNext q (arFire (i.masters k) (s.masterIn i k)) (readReq (i.masters k))
        (rLastFire (i.masters k) (s.masterIn i k)) =
      if s.readPath.Connected k then
        pendingNext q (s.readStart i) (readReq (s.readOwner i)) (s.readFin i)
      else q := by
  simp only [readSignal_arFire.masterIn, readSignal_rLastFire.masterIn, readStart, readFin]
  split_ifs with hk
  · have ho : i.masters k = s.readOwner i := congrArg _ hk.2
    simp [hk, hk.1, ho]
  · simp [hk, pendingNext]

/-- The writes of a master change while it is connected. -/
theorem pendingNext_writes (q : List Word) (k : Fin (n + 1)) :
    pendingNext q (awFire (i.masters k) (s.masterIn i k)) (writeReq (i.masters k))
        (bFire (i.masters k) (s.masterIn i k)) =
      if s.writePath.Connected k then
        pendingNext q (s.writeStart i) (writeReq (s.writeOwner i)) (s.writeFin i)
      else q := by
  simp only [writeSignal_awFire.masterIn, writeSignal_bFire.masterIn, writeStart, writeFin]
  split_ifs with hk
  · have ho : i.masters k = s.writeOwner i := congrArg _ hk.2
    simp [hk, hk.1, ho]
  · simp [hk, pendingNext]

/-- The log of a master that is not connected keeps its reads. -/
theorem masterLog_reads_succ (k : Fin (n + 1)) : (masterLog r k (t + 1)).reads =
    if (r.st t).readPath.Connected k then
      pendingNext (masterLog r k t).reads ((r.st t).readStart (r.inp t))
        (readReq ((r.st t).readOwner (r.inp t))) ((r.st t).readFin (r.inp t))
    else (masterLog r k t).reads :=
  pendingNext_reads _ k

/-- The reads of a slave change while it is reached. -/
theorem slaveLog_reads_succ (j : Fin (m + 1)) : (slaveLog r j (t + 1)).reads =
    if (r.st t).readPath.Reaches j then
      pendingNext (slaveLog r j t).reads ((r.st t).readStart (r.inp t))
        (readReq ((r.st t).readOwner (r.inp t))) ((r.st t).readFin (r.inp t))
    else (slaveLog r j t).reads := by
  rw [slaveLog, r.watch_succ, ← slaveLog]
  simp only [PortLog.next, readSignal_arFire.slaveOut, readSignal_rLastFire.slaveOut,
    readStart, readFin]
  split_ifs with hj
  · have ho : readReq ((r.st t).slaveOut (r.inp t) j) = readReq ((r.st t).readOwner (r.inp t)) := by
      simp [readReq, (slaveOut_read_of_reaches (i := r.inp t) hj).1]
    simp [hj, hj.1, ho]
  · simp [hj, pendingNext]

/-- The writes of a master in the next cycle. -/
theorem masterLog_writes_succ (k : Fin (n + 1)) : (masterLog r k (t + 1)).writes =
    if (r.st t).writePath.Connected k then
      pendingNext (masterLog r k t).writes ((r.st t).writeStart (r.inp t))
        (writeReq ((r.st t).writeOwner (r.inp t))) ((r.st t).writeFin (r.inp t))
    else (masterLog r k t).writes :=
  pendingNext_writes _ k

/-- The writes of a slave in the next cycle. -/
theorem slaveLog_writes_succ (j : Fin (m + 1)) : (slaveLog r j (t + 1)).writes =
    if (r.st t).writePath.Reaches j then
      pendingNext (slaveLog r j t).writes ((r.st t).writeStart (r.inp t))
        (writeReq ((r.st t).writeOwner (r.inp t))) ((r.st t).writeFin (r.inp t))
    else (slaveLog r j t).writes := by
  rw [slaveLog, r.watch_succ, ← slaveLog]
  simp only [PortLog.next, writeSignal_awFire.slaveOut, writeSignal_bFire.slaveOut,
    writeStart, writeFin]
  split_ifs with hj
  · have ho : writeReq ((r.st t).slaveOut (r.inp t) j) =
        writeReq ((r.st t).writeOwner (r.inp t)) := by
      simp [writeReq, (slaveOut_write_of_reaches (i := r.inp t) hj).1]
    simp [hj, hj.1, ho]
  · simp [hj, pendingNext]

/-- What both ends of the write path do with their record of the data. -/
def dataNext (s : Interconnect n m) (i : BusIn n m) (done : Bool) : Bool :=
  if s.writeFin i then false else done || wLastFire (s.writeOwner i) (s.writePort i)

/-- The data of a master in the next cycle. -/
theorem masterLog_data_succ (k : Fin (n + 1)) : (masterLog r k (t + 1)).dataDone =
    if (r.st t).writePath.Connected k then
      (r.st t).dataNext (r.inp t) (masterLog r k t).dataDone
    else (masterLog r k t).dataDone := by
  rw [masterLog, r.watch_succ, ← masterLog]
  simp only [PortLog.next, writeSignal_wLastFire.masterIn, writeSignal_bFire.masterIn, dataNext,
    writeFin]
  by_cases hk : (r.st t).writePath.Connected k
  · simp [hk, hk.1]
  · simp [hk]

/-- The data of a slave in the next cycle. -/
theorem slaveLog_data_succ (j : Fin (m + 1)) : (slaveLog r j (t + 1)).dataDone =
    if (r.st t).writePath.Reaches j then
      (r.st t).dataNext (r.inp t) (slaveLog r j t).dataDone
    else (slaveLog r j t).dataDone := by
  rw [slaveLog, r.watch_succ, ← slaveLog]
  simp only [PortLog.next, writeSignal_wLastFire.slaveOut, writeSignal_bFire.slaveOut, dataNext,
    writeFin]
  by_cases hj : (r.st t).writePath.Reaches j
  · simp [hj, hj.1]
  · simp [hj]

/-- A handshake on the open path is one of the owner. -/
theorem owner_arFire (h : s.readStart i = true) :
    arFire (i.masters s.readPath.owner) (s.masterIn i s.readPath.owner) = true := by
  rw [master_arFire, h]
  simp

/-- A write that starts is the owner's. -/
theorem owner_awFire (h : s.writeStart i = true) :
    awFire (i.masters s.writePath.owner) (s.masterIn i s.writePath.owner) = true := by
  rw [master_awFire, h]
  simp

/-- A read that is not started is asked for again. -/
theorem readReq_holds (hm : MastersBehave r t) (k : Fin (n + 1)) (a : Word)
    (ha : readReq ((r.inp t).masters k) = some a)
    (hk : ¬ ((r.st t).readStart (r.inp t) = true ∧ k = (r.st t).readPath.owner)) :
    readReq ((r.inp (t + 1)).masters k) = some a := by
  have hv : ((r.inp t).masters k).ar.valid = true := by
    rw [← readReq_isSome, ha]
    rfl
  have hnr : ((r.st t).masterIn (r.inp t) k).arReady = false := by
    by_contra hr
    have hf := master_arFire (s := r.st t) (i := r.inp t) k
    rw [arFire, hv, Bool.not_eq_false _ |>.mp hr, Bool.and_self, eq_comm, Bool.and_eq_true,
      decide_eq_true_eq] at hf
    exact hk ⟨hf.2, hf.1⟩
  rw [readReq, hm.holdsRead k hv hnr]
  exact ha

/-- A write that is not started is asked for again. -/
theorem writeReq_holds (hm : MastersBehave r t) (k : Fin (n + 1)) (a : Word)
    (ha : writeReq ((r.inp t).masters k) = some a)
    (hk : ¬ ((r.st t).writeStart (r.inp t) = true ∧ k = (r.st t).writePath.owner)) :
    writeReq ((r.inp (t + 1)).masters k) = some a := by
  have hv : ((r.inp t).masters k).aw.valid = true := by
    rw [← writeReq_isSome, ha]
    rfl
  have hnr : ((r.st t).masterIn (r.inp t) k).awReady = false := by
    by_contra hr
    have hf := master_awFire (s := r.st t) (i := r.inp t) k
    rw [awFire, hv, Bool.not_eq_false _ |>.mp hr, Bool.and_self, eq_comm, Bool.and_eq_true,
      decide_eq_true_eq] at hf
    exact hk ⟨hf.2, hf.1⟩
  rw [writeReq, hm.holdsWrite k hv hnr]
  exact ha

/-- The slave at the open write path responds after its address and its last beat. -/
theorem BusInv.owner_done (h : BusInv r t) (hs : SlavesBehave r t)
    (hopen : (r.st t).writePath.Open)
    (hb : ((r.st t).writePort (r.inp t)).b.valid = true) :
    (masterLog r (r.st t).writePath.owner t).writes ≠ [] ∧
      (masterLog r (r.st t).writePath.owner t).dataDone = true := by
  have hdone := h.writePort_done hs (r.st t).writePath.port hb
  rwa [(h.writes _).same ⟨hopen, rfl⟩, (h.data _).same ⟨hopen, rfl⟩] at hdone

/-- A cycle of the masters is a cycle of the read path. -/
theorem readCycle (hm : MastersBehave r t) :
    BusPath.Cycle (r.st t).readPath (fun k => (masterLog r k t).reads)
      (fun k => (masterLog r k (t + 1)).reads) (fun k => readReq ((r.inp t).masters k))
      (fun k => readReq ((r.inp (t + 1)).masters k)) ((r.st t).readStart (r.inp t))
      ((r.st t).readFin (r.inp t)) where
  start_open h := ⟨of_decide_eq_true (Bool.and_eq_true_iff.mp h).1, hm.oneRead _ (owner_arFire h)⟩
  fin_open h := by
    have hboth := Bool.and_eq_true_iff.mp h
    refine ⟨of_decide_eq_true hboth.1, hm.readyAfterAddress _ ?_⟩
    simp only [rLastFire, rFire, Bool.and_eq_true] at hboth
    exact hboth.2.1.2
  holds := readReq_holds hm
  acc_next := masterLog_reads_succ

/-- A cycle of the masters is a cycle of the write path. -/
theorem BusInv.writeCycle (h : BusInv r t) (hm : MastersBehave r t) (hs : SlavesBehave r t) :
    BusPath.Cycle (r.st t).writePath (fun k => (masterLog r k t).writes)
      (fun k => (masterLog r k (t + 1)).writes) (fun k => writeReq ((r.inp t).masters k))
      (fun k => writeReq ((r.inp (t + 1)).masters k)) ((r.st t).writeStart (r.inp t))
      ((r.st t).writeFin (r.inp t)) where
  start_open h := ⟨of_decide_eq_true (Bool.and_eq_true_iff.mp h).1, hm.oneWrite _ (owner_awFire h)⟩
  fin_open hf := by
    have hboth := Bool.and_eq_true_iff.mp hf
    have hopen := of_decide_eq_true hboth.1
    simp only [bFire, Bool.and_eq_true] at hboth
    exact ⟨hopen, (h.owner_done hs hopen hboth.2.1).1⟩
  holds := writeReq_holds hm
  acc_next := masterLog_writes_succ

/-- **The step of the invariant.** -/
theorem BusInv.next (h : BusInv r t) (hm : MastersBehave r t) (hs : SlavesBehave r t) :
    BusInv r (t + 1) := by
  have hstep : r.st (t + 1) = (r.st t).next slavesMap (r.inp t) := r.step t
  have hr := readCycle hm
  have hw := h.writeCycle hm hs
  have hdata : (r.st t).writePath.Open → (r.st t).writeFin (r.inp t) = true →
      (r.st t).dataNext (r.inp t) (masterLog r (r.st t).writePath.owner t).dataDone = false :=
    fun _ hf => by rw [dataNext, if_pos hf]
  refine ⟨?_, fun j => ?_, ?_, fun j => ?_, ?_, fun j => ?_, ?_⟩
  · rw [hstep, readPath_next]
    exact h.read.next hr
  · rw [hstep, readPath_next]
    exact (h.reads j).next h.read.quiet
      (fun q => pendingNext q ((r.st t).readStart (r.inp t))
        (readReq ((r.st t).readOwner (r.inp t))) ((r.st t).readFin (r.inp t)))
      masterLog_reads_succ (slaveLog_reads_succ j) fun _ hf => h.read.pendingNext_fin hr hf _
  · rw [hstep, writePath_next]
    exact h.write.next hw
  · rw [hstep, writePath_next]
    exact (h.writes j).next h.write.quiet
      (fun q => pendingNext q ((r.st t).writeStart (r.inp t))
        (writeReq ((r.st t).writeOwner (r.inp t))) ((r.st t).writeFin (r.inp t)))
      masterLog_writes_succ (slaveLog_writes_succ j) fun _ hf => h.write.pendingNext_fin hw hf _
  · rw [hstep, writePath_next]
    exact h.quietData.next ((r.st t).dataNext (r.inp t)) masterLog_data_succ hdata
  · rw [hstep, writePath_next]
    exact (h.data j).next h.quietData ((r.st t).dataNext (r.inp t)) masterLog_data_succ
      (slaveLog_data_succ j) hdata
  · rw [hstep, slaveLog, r.watch_succ, ← slaveLog]
    have herr : (r.st t).slaveIn (r.inp t) (Fin.last m) = (r.st t).xbar.errSlave.ioIn := by
      simp [slaveIn, AXI4CrossBar.slaveIn]
    rw [herr]
    exact h.errSlave.next _

/-- The invariant holds in every run. -/
theorem busInv (hm : ∀ t, MastersBehave r t) (hs : ∀ t, SlavesBehave r t) (t : ℕ) :
    BusInv r t := by
  induction t with
  | zero => exact busInv_zero r
  | succ t ih => exact ih.next (hm t) (hs t)

/-! ## The main theorem -/

/-- A list with at most one entry that is not empty has exactly one. -/
theorem eq_singleton_of_short {A : Type*} {q : List A} (hlen : q.length ≤ 1) (hne : q ≠ []) :
    ∃ a, q = [a] := by
  refine List.length_eq_one_iff.mp ?_
  have hpos := List.length_pos_iff.mpr hne
  omega

/-- The transaction of the owner decodes to the open port. -/
theorem current_of_open {p : BusPath n m} {acc : Fin (n + 1) → List Word}
    {req : Fin (n + 1) → Option Word} (h : BusPath.Inv (candidate slavesMap) p acc req)
    (ho : p.Open) :
    ∃ a, current (acc p.owner) (req p.owner) = some a ∧ candidate slavesMap a = p.port := by
  obtain ⟨a, hcur, hroute⟩ := h.waits ho.1
  exact ⟨a, hcur, hroute ho.2⟩

/-- The only outstanding transaction of the owner is the one of the port. -/
theorem outstanding_of_open {p : BusPath n m} {acc : Fin (n + 1) → List Word}
    {sacc : List Word} {req : Fin (n + 1) → Option Word}
    (h : BusPath.Inv (candidate slavesMap) p acc req) (hs : Mirrors p [] acc p.port sacc)
    (ho : p.Open) (hne : acc p.owner ≠ []) :
    ∃ a, acc p.owner = [a] ∧ sacc = [a] ∧ candidate slavesMap a = p.port := by
  obtain ⟨a, ha⟩ := eq_singleton_of_short (h.short p.owner) hne
  obtain ⟨a', hcur, hroute⟩ := current_of_open h ho
  rw [ha, current_cons, Option.some_inj] at hcur
  exact ⟨a, ha, by rw [hs.same ⟨ho, rfl⟩, ha], hcur ▸ hroute⟩

/-- A slave has at most one transaction. -/
theorem port_short {p : BusPath n m} {acc : Fin (n + 1) → List Word} {j : Fin (m + 1)}
    {sacc : List Word} {req : Fin (n + 1) → Option Word}
    (h : BusPath.Inv (candidate slavesMap) p acc req) (hs : Mirrors p [] acc j sacc) :
    sacc.length ≤ 1 := by
  by_cases hj : p.Reaches j
  · rw [hs.same hj]
    exact h.short _
  · simp [hs.rest hj]

/-- An address that starts a read decodes to the open port. -/
theorem BusInv.readAddr_routed (h : BusInv r t) (hm : MastersBehave r t)
    (hstart : (r.st t).readStart (r.inp t) = true) :
    candidate slavesMap ((r.inp t).masters (r.st t).readPath.owner).ar.bits.addr =
      (r.st t).readPath.port := by
  have ho := of_decide_eq_true (Bool.and_eq_true_iff.mp hstart).1
  have hfire := owner_arFire hstart
  have hv : ((r.inp t).masters (r.st t).readPath.owner).ar.valid = true :=
    (Bool.and_eq_true_iff.mp hfire).1
  obtain ⟨a, hcur, hroute⟩ := current_of_open h.read ho
  rw [hm.oneRead _ hfire, current_nil, readReq, if_pos hv, Option.some_inj] at hcur
  rw [hcur, hroute]

/-- An address that starts a write decodes to the open port. -/
theorem BusInv.writeAddr_routed (h : BusInv r t) (hm : MastersBehave r t)
    (hstart : (r.st t).writeStart (r.inp t) = true) :
    candidate slavesMap ((r.inp t).masters (r.st t).writePath.owner).aw.bits.addr =
      (r.st t).writePath.port := by
  have ho := of_decide_eq_true (Bool.and_eq_true_iff.mp hstart).1
  have hfire := owner_awFire hstart
  have hv : ((r.inp t).masters (r.st t).writePath.owner).aw.valid = true :=
    (Bool.and_eq_true_iff.mp hfire).1
  obtain ⟨a, hcur, hroute⟩ := current_of_open h.write ho
  rw [hm.oneWrite _ hfire, current_nil, writeReq, if_pos hv, Option.some_inj] at hcur
  rw [hcur, hroute]

/-- **Isolation.**  If the masters and the slaves behave, every cycle is isolated. -/
theorem isolated (r : (machine slavesMap n).Run) (hm : ∀ t, MastersBehave r t)
    (hs : ∀ t, SlavesBehave r t) (t : ℕ) : Isolated r t := by
  have h := busInv hm hs t
  refine ⟨?_, ?_, ?_, ?_, ?_, fun j => port_short h.read (h.reads j),
    fun j => port_short h.write (h.writes j)⟩
  · refine carries readSignal_arFire.masterIn readSignal_arFire.slaveOut fun ho hf => ?_
    have hstart : (r.st t).readStart (r.inp t) = true :=
      Bool.and_eq_true_iff.mpr ⟨decide_eq_true ho, hf⟩
    refine ⟨?_, h.readAddr_routed (hm t) hstart⟩
    rw [(slaveOut_read_of_reaches ⟨ho, rfl⟩).1]
    rfl
  · refine carries readSignal_rFire.masterIn readSignal_rFire.slaveOut fun ho hf => ?_
    refine ⟨?_, outstanding_of_open h.read (h.reads _) ho ?_⟩
    · rw [(masterIn_read_of_connected ⟨ho, rfl⟩).2]
      rfl
    · exact (hm t).readyAfterAddress _ (Bool.and_eq_true_iff.mp hf).2
  · refine carries writeSignal_awFire.masterIn writeSignal_awFire.slaveOut fun ho hf => ?_
    have hstart : (r.st t).writeStart (r.inp t) = true :=
      Bool.and_eq_true_iff.mpr ⟨decide_eq_true ho, hf⟩
    refine ⟨?_, h.writeAddr_routed (hm t) hstart⟩
    rw [(slaveOut_write_of_reaches ⟨ho, rfl⟩).1]
    rfl
  · refine carries writeSignal_wFire.masterIn writeSignal_wFire.slaveOut fun ho hf => ?_
    refine ⟨?_, current_of_open h.write ho⟩
    rw [(slaveOut_write_of_reaches ⟨ho, rfl⟩).2.1]
    rfl
  · refine carries writeSignal_bFire.masterIn writeSignal_bFire.slaveOut fun ho hf => ?_
    obtain ⟨hne, hdone⟩ := h.owner_done (hs t) ho (Bool.and_eq_true_iff.mp hf).1
    refine ⟨?_, hdone, outstanding_of_open h.write (h.writes _) ho hne⟩
    rw [(masterIn_write_of_connected ⟨ho, rfl⟩).2.2]
    rfl

/-- A write of master 0 to the SoC and a read of master 1 from the CLINT, at once. -/
def writeAndRead (t : ℕ) : BusIn 1 2 where
  masters := ![
    { aw := if t ≤ 2 then ⟨true, { addr := 0x80000000 }⟩ else ⟨false, {}⟩
      w := if t ≤ 2 then ⟨true, { data := 7, strb := 15, last := true }⟩ else ⟨false, {}⟩
      bReady := decide (t = 3) },
    { ar := if t ≤ 2 then ⟨true, { addr := 0x0200bff8 }⟩ else ⟨false, {}⟩
      rReady := decide (t = 3) }]
  slaves := ![
    { awReady := decide (t = 2), wReady := decide (t = 2), b := ⟨decide (t = 3), {}⟩ },
    { arReady := decide (t = 2), r := ⟨decide (t = 3), { data := 9, last := true }⟩ }]

/-- Its run from rest, over the memory map of the core. -/
def writeAndReadRun : (machine Core.slavesMap 1).Run :=
  (machine Core.slavesMap 1).run ⟨AXI4Arbiter.reset, AXI4CrossBar.rest⟩
    ⟨rfl, ⟨rfl, rfl, rfl, rfl, ⟨rfl, rfl⟩⟩⟩ writeAndRead

/-- The masters of the run behave. -/
theorem writeAndRead_mastersBehave (t : ℕ) : MastersBehave writeAndReadRun t := by
  rcases Nat.lt_or_ge t 4 with ht | ht
  · interval_cases t <;> exact ⟨by decide, by decide, by decide, by decide, by decide⟩
  · -- from then on no master drives anything
    have hsmall : ¬ t ≤ 2 ∧ t ≠ 3 := by omega
    have hidle : ∀ k, (writeAndReadRun.inp t).masters k = {} := by
      change ∀ k : Fin 2, (writeAndRead t).masters k = {}
      refine Fin.forall_fin_two.mpr ⟨?_, ?_⟩ <;> simp [writeAndRead, hsmall.1, hsmall.2]
    refine ⟨fun k h => ?_, fun k h => ?_, fun k h => ?_, fun k h => ?_, fun k h => ?_⟩ <;>
      simp [hidle k, arFire, awFire] at h

/-- The slaves of the run behave. -/
theorem writeAndRead_slavesBehave (t : ℕ) : SlavesBehave writeAndReadRun t := by
  rcases Nat.lt_or_ge t 4 with ht | ht
  · unfold SlavesBehave
    interval_cases t <;> decide
  · have hne : t ≠ 3 := by omega
    have hquiet : ∀ j, ((writeAndReadRun.inp t).slaves j).b.valid = false := by
      change ∀ j, ((writeAndRead t).slaves j).b.valid = false
      refine Fin.forall_fin_two.mpr ⟨?_, ?_⟩ <;> simp [writeAndRead, hne]
    exact fun j h => absurd h (by simp [hquiet j])

/-- The response of the one master and the beat of the other come in the same cycle. -/
theorem writeAndRead_isolated :
    (bFire ((writeAndRead 3).masters 0) ((writeAndReadRun.st 3).masterIn (writeAndRead 3) 0) &&
      rFire ((writeAndRead 3).masters 1) ((writeAndReadRun.st 3).masterIn (writeAndRead 3) 1)) =
        true ∧ ∀ t, Isolated writeAndReadRun t :=
  ⟨by decide, isolated _ writeAndRead_mastersBehave writeAndRead_slavesBehave⟩

end Interconnect

end Bailuwan
