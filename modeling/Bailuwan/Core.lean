/-
# The core (`Core.scala`)

Five stages joined by pipeline registers, the register and CSR files, and the
interconnect between the two memory ports, the external port and the timer.  Every
control signal is a function of the registers; the only input is the slave behind
the external port.
-/
import Bailuwan.Interconnect
import Bailuwan.WBU

namespace Bailuwan

open Synchronous AXI4

/-! ## The timer (`core/CLINT.scala`) -/

/-- The registers of `CLINT`. -/
structure CLINT where
  mtime : BitVec 64
  addrReg : Word
  deriving DecidableEq, Repr

namespace CLINT

variable (c : CLINT)

/-- Every handshake is accepted at once; writes are answered with an error. -/
def ioIn : In where
  arReady := true
  r := ⟨true, { data := if c.addrReg = 0x02000000 then c.mtime.extractLsb' 0 32
    else c.mtime.extractLsb' 32 32, resp := AXIResp.OKAY, last := true }⟩
  awReady := true
  wReady := true
  b := ⟨true, { resp := AXIResp.SLVERR }⟩

/-- The clock edge: time goes on, and the address of a load is kept. -/
def next (o : Out) : CLINT where
  mtime := c.mtime + 1
  addrReg := if arFire o c.ioIn then o.ar.bits.addr else c.addrReg

end CLINT

/-! ## Pipeline registers -/

/-- `PipelineConnect`: the register between two stages after a cycle, where `prev` is
what the earlier stage offers. -/
def pipelineConnect {α : Type*} (reg : Valid α) (prev : Option α)
    (ready invalidate injectBubble : Bool) : Valid α where
  valid := if invalidate then false
    else if ready then !injectBubble && prev.isSome else reg.valid
  bits := match prev, ready with
    | some b, true => b
    | _, _ => reg.bits

/-! ## The registers of the core -/

/-- The registers of the core: the units, those between the stages, and the interconnect. -/
structure Core where
  ifu : IFU
  iduIn : Valid IFUOut
  exuIn : Valid IDUOut
  lsuIn : Valid EXUOut
  wbuIn : Valid LSUOut
  lsu : LSU
  regFile : RegFile
  csrFile : CSRFile
  bus : Interconnect 1 2
  clint : CLINT

namespace Core

variable (c : Core) (io : In)

/-- What reset fixes. -/
structure IsReset : Prop where
  ifu : c.ifu.IsReset
  iduIn : c.iduIn.valid = false
  exuIn : c.exuIn.valid = false
  lsuIn : c.lsuIn.valid = false
  wbuIn : c.wbuIn.valid = false
  lsu : c.lsu.IsReset
  regFile : ∀ k, c.regFile.regs k = 0
  csrFile : c.csrFile = CSRFile.reset
  bus : c.bus.IsReset
  clint : c.clint = ⟨0, 0⟩

/-! ## Flow control -/

/-- `WBU.io.in.ready` is always high. -/
def lsuInReady : Bool := c.lsu.inReady c.lsuIn true

/-- The ready of the execution stage is that of the load and store unit. -/
def exuFire : Bool := c.exuIn.valid && c.lsuInReady

/-- The CSR that the instruction in EXU reads. -/
def csrRsData : Word := c.csrFile.read c.exuIn.bits.csrAddr

/-- EXU redirects the fetch after a misprediction. -/
def exuFlush : Bool := EXU.brMispredict c.exuIn.bits c.csrRsData c.exuFire

/-- WBU redirects the fetch and empties the pipeline. -/
def wbuFlush : Bool := WBU.redirectValid c.wbuIn

/-- The hazards in the order of `hazard_info`. -/
def hazards : List HazardInfo :=
  [EXU.hazard c.exuIn.bits c.csrRsData c.exuIn.valid, c.lsu.hazard c.lsuIn, WBU.hazard c.wbuIn]

/-- The decoder waits for an instruction in front of it. -/
def hazardStall : Bool := IDU.hazardStall c.hazards c.iduIn

/-- The register behind the fetch unit can be loaded. -/
def iduInReady : Bool := c.lsuInReady && !c.hazardStall

/-! ## What the stages offer -/

/-- What the decoder hands over, with the two ports of the register file. -/
def iduOut : Option IDUOut :=
  if c.iduIn.valid && !c.hazardStall then
    some (IDU.bits c.hazards c.iduIn.bits (c.regFile.read (IDU.rs1 c.iduIn.bits.inst))
      (c.regFile.read (IDU.rs2 c.iduIn.bits.inst)))
  else none

/-- What EXU hands over; it does so in the cycle in which it gets an instruction. -/
def exuOut : Option EXUOut :=
  if c.exuIn.valid then some (EXU.bits c.exuIn.bits c.csrRsData) else none

/-- What the load and store unit hands over. -/
def lsuOut : Option LSUOut :=
  if c.lsu.outValid then some (c.lsu.bits c.lsuIn.bits) else none

/-! ## The bus -/

/-- The masters, the load and store unit first, and the external slaves: the SoC port and
the timer. -/
def busIn : BusIn 1 2 where
  masters := ![c.lsu.memOut c.lsuIn, c.ifu.memOut]
  slaves := ![io, c.clint.ioIn]

/-- What the load and store unit sees: it is the first master. -/
def lsuMem : In := c.bus.masterIn (c.busIn io) 0

/-- The port of the fetch unit: it is the second master. -/
def ifuMem : In := c.bus.masterIn (c.busIn io) 1

/-- The external port. -/
def master : Out := c.bus.slaveOut (c.busIn io) 0

/-- Where the fetch is redirected to; WBU has priority. -/
def redirectTarget : Word :=
  if c.wbuFlush then WBU.redirectTarget c.wbuIn c.csrFile.mtvec c.csrFile.mepc
  else EXU.correctTarget c.exuIn.bits c.csrRsData

/-- The inputs of the fetch unit. -/
def ifuIn : IFUIn where
  outReady := c.iduInReady
  redirectValid := c.exuFlush || c.wbuFlush
  redirectTarget := c.redirectTarget
  icacheFlush := WBU.icacheFlush c.wbuIn
  btbW := EXU.btbW c.exuIn.bits c.exuFire
  mem := c.ifuMem io

/-! ## The clock edge -/

/-- The CSR write of the instruction in WBU. -/
def csrWrite : CSRFile.Write where
  enable := WBU.csrRdWe c.wbuIn
  addr := c.wbuIn.bits.csrRdAddr
  data := c.wbuIn.bits.csrRdData

/-- The clock edge of the core. -/
def next : Core where
  ifu := c.ifu.next (c.ifuIn io)
  iduIn := pipelineConnect c.iduIn (c.ifu.out (c.ifuIn io)) c.iduInReady
    (c.wbuFlush || c.exuFlush) false
  exuIn := pipelineConnect c.exuIn c.iduOut c.lsuInReady c.wbuFlush c.exuFlush
  lsuIn := pipelineConnect c.lsuIn c.exuOut c.lsuInReady c.wbuFlush false
  wbuIn := pipelineConnect c.wbuIn c.lsuOut true c.wbuFlush false
  lsu := c.lsu.next c.lsuIn (c.lsuMem io) c.wbuFlush true
  regFile := c.regFile.next c.wbuIn.bits.rdAddr c.wbuIn.bits.lsOut (WBU.rdWe c.wbuIn)
  csrFile := c.csrFile.next c.csrWrite (WBU.exception c.wbuIn) c.wbuIn.bits.pc
  bus := c.bus.next slavesMap (c.busIn io)
  clint := c.clint.next (c.bus.slaveOut (c.busIn io) 1)

/-- The core as a synchronous machine. -/
def machine : Machine Core In where
  init := IsReset
  next := next

end Core

end Bailuwan
