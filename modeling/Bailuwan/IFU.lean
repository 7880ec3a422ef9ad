/-
# The instruction fetch unit (`core/IFU.scala`)

The fetch unit offers its `pc` to the instruction cache with the prediction made for
it, and collects the responses in a queue of four entries in front of the decoder.
A redirect replaces the `pc`, kills the request in the cache and flushes the queue.
-/
import Bailuwan.BPU
import Bailuwan.ICache

namespace Bailuwan

open Synchronous

/-! ## Bundles -/

namespace ExceptionCode

def InstructionAddressMisaligned : Word := 0
def InstructionAccessFault : Word := 1
def IllegalInstruction : Word := 2
def Breakpoint : Word := 3
def LoadAddressMisaligned : Word := 4
def LoadAccessFault : Word := 5
def StoreAMOAddressMisaligned : Word := 6
def StoreAMOAccessFault : Word := 7
def EnvironmentCallFromMMode : Word := 11
def StoreAMOPageFault : Word := 15

end ExceptionCode

/-- An exception that goes along with an instruction. -/
structure ExceptionInfo where
  valid : Bool
  cause : Word
  tval : Word
  deriving DecidableEq, Repr

/-- `BPMeta`, the prediction that travels with a request through the cache. -/
structure BPMeta where
  predictTaken : Bool
  predictTarget : Word
  deriving DecidableEq, Repr

/-- An instruction that is handed over, with its exception and prediction. -/
structure IFUOut where
  pc : Word
  inst : Word
  exception : ExceptionInfo
  predictTaken : Bool
  predictTarget : Word
  deriving DecidableEq, Repr

/-- The inputs of one cycle. -/
structure IFUIn where
  outReady : Bool
  redirectValid : Bool
  redirectTarget : Word
  icacheFlush : Bool
  btbW : BTBWrite
  mem : AXI4.In
  deriving Repr

/-- `ResetVector`, in the flash. -/
def resetVector : Word := 0x30000000

/-- The registers of `IFU`, with those of the modules inside it; `queue` is the contents
of the `Queue`, oldest first. -/
structure IFU where
  icache : ICache BPMeta
  pc : Word
  bpu : BPU
  queue : List IFUOut

namespace IFU

variable (f : IFU) (i : IFUIn)

/-- What reset fixes. -/
structure IsReset : Prop where
  icache : f.icache.IsReset
  pc : f.pc = resetVector
  bpu : f.bpu.IsReset
  queue : f.queue = []

/-! ## Combinational signals -/

/-- `resp_queue.io.enq.ready`: the queue has four entries. -/
def enqReady : Bool := decide (f.queue.length < 4)

/-- The instruction at `pc` is predicted to be a taken branch. -/
def predictTaken : Bool := f.bpu.predictTaken f.pc

/-- Where it is predicted to go. -/
def predictTarget : Word := f.bpu.predictTarget f.pc

/-- What the cache sees. -/
def icacheIn : ICacheIn BPMeta where
  req := ⟨!i.redirectValid, ⟨f.pc, ⟨f.predictTaken, f.predictTarget⟩⟩⟩
  respReady := f.enqReady
  kill := i.redirectValid
  flush := i.icacheFlush
  mem := i.mem

/-- The cache takes the request. -/
def reqFire : Bool := f.icache.reqFire (f.icacheIn i)

/-- The cache answers. -/
def respFire : Bool := f.icache.respFire (f.icacheIn i)

/-- The answer of the cache. -/
def resp : ICacheResp BPMeta := f.icache.respBits (f.icacheIn i)

/-- The exception of a response; the address is checked before the data. -/
def excp : ExceptionInfo :=
  let isMisaligned := decide ((f.resp i).addr.extractLsb' 0 2 ≠ 0)
  { valid := isMisaligned || (f.resp i).error
    cause := if isMisaligned then ExceptionCode.InstructionAddressMisaligned
      else ExceptionCode.InstructionAccessFault
    tval := (f.resp i).addr }

/-- The instruction that enters the queue. -/
def enqBits : IFUOut where
  pc := (f.resp i).addr
  inst := (f.resp i).data
  exception := f.excp i
  predictTaken := (f.resp i).user.predictTaken
  predictTarget := (f.resp i).user.predictTarget

/-- The head of the queue, offered to the decoder unless the fetch is redirected. -/
def out : Option IFUOut := if i.redirectValid then none else f.queue.head?

/-- The instruction delivered in this cycle. -/
def delivers : Option IFUOut := if i.outReady then f.out i else none

/-- The memory port. -/
def memOut : AXI4.Out := f.icache.memOut

/-- Redirect, then prediction, then `pc + 4`. -/
def dnpc : Word :=
  if i.redirectValid then i.redirectTarget
  else if f.predictTaken && f.reqFire i then f.predictTarget
  else if f.reqFire i then f.pc + 4
  else f.pc

/-! ## The clock edge -/

/-- The clock edge; a redirect empties the queue. -/
def next : IFU where
  icache := f.icache.next (f.icacheIn i)
  pc := f.dnpc i
  bpu := f.bpu.next f.pc i.btbW
  queue :=
    if i.redirectValid then []
    else (if (f.delivers i).isSome then f.queue.tail else f.queue) ++
      if f.respFire i then [f.enqBits i] else []

/-- The fetch unit as a synchronous machine. -/
def machine : Machine IFU IFUIn where
  init := IsReset
  next := next

end IFU

end Bailuwan
