/-
# The load and store unit (`core/LSU.scala`)

One instruction at a time: the registers in front of the unit hold it while its
transaction runs through the states, and `in.ready` releases them when it leaves.
-/
import Bailuwan.EXU

namespace Bailuwan

open AXI4

/-- What the load and store unit hands over to WBU. -/
structure LSUOut where
  lsOut : Word
  rdAddr : BitVec 5
  rdWe : Bool
  csrRdAddr : BitVec 12
  csrRdWe : Bool
  csrRdData : Word
  pc : Word
  inst : Word
  exception : ExceptionInfo
  isTrapReturn : Bool
  isFenceI : Bool
  deriving DecidableEq, Repr

/-- `s_idle`, `s_r_addr`, `s_r_wait_mem`, `s_w_addr`, `s_w_data`, `s_w_wait_mem` and
`s_wait_ready`. -/
inductive LSUState
  | idle
  | rAddr
  | rWaitMem
  | wAddr
  | wData
  | wWaitMem
  | waitReady
  deriving DecidableEq, Repr

/-- The registers. -/
structure LSU where
  state : LSUState
  readReg : Word
  accessFault : Bool
  deriving DecidableEq, Repr

namespace LSU

variable (u : LSU) (x : Valid EXUOut) (m : AXI4.In)

/-- What reset fixes. -/
structure IsReset : Prop where
  state : u.state = .idle
  accessFault : u.accessFault = false

/-! ## The request -/

/-- The operation; none for an instruction that already has an exception. -/
def reqOp (b : EXUOut) : LSUOp := if b.exception.valid then .nop else b.lsuOp

/-- The state in which an operation begins. -/
def entryState (b : EXUOut) : LSUState :=
  match reqOp b with
  | .nop => .waitReady
  | .lb | .lh | .lw | .lbu | .lhu => .rAddr
  | .sb | .sh | .sw => .wAddr

/-- `req_addr(1, 0)`. -/
def byteOffset (addr : Word) : BitVec 2 := addr.extractLsb' 0 2

/-- The bytes of the word that a store enables. -/
def writeMask (b : EXUOut) : BitVec 4 :=
  match reqOp b with
  | .sb => (0x1 : BitVec 4) <<< (byteOffset b.lsuAddr).toNat
  | .sh => (0x3 : BitVec 4) <<< (byteOffset b.lsuAddr).toNat
  | .sw => 0xf
  | _ => 0

/-- The data of a store, moved to its bytes. -/
def selectedStoreData (b : EXUOut) : Word :=
  match reqOp b with
  | .sb | .sh => b.lsuStoreData <<< (8 * (byteOffset b.lsuAddr).toNat)
  | .sw => b.lsuStoreData
  | _ => 0

/-- The size of the access, `ar.bits.size` and `aw.bits.size`. -/
def loadSize (b : EXUOut) : BitVec 3 :=
  match reqOp b with
  | .lh | .lhu => 1
  | .lw => 2
  | _ => 0

/-- `size` of a write request. -/
def storeSize (b : EXUOut) : BitVec 3 :=
  match reqOp b with
  | .sh => 1
  | .sw => 2
  | _ => 0

/-! ## The memory port -/

/-- The unit's half of its port; address and data of a write are offered together. -/
def memOut : AXI4.Out where
  ar := ⟨decide (u.state = .rAddr), { addr := x.bits.lsuAddr, size := loadSize x.bits }⟩
  rReady := decide (u.state = .rWaitMem)
  aw := ⟨decide (u.state = .wAddr), { addr := x.bits.lsuAddr, size := storeSize x.bits }⟩
  w := ⟨decide (u.state = .wAddr) || decide (u.state = .wData),
    { data := selectedStoreData x.bits, strb := writeMask x.bits, last := true }⟩
  bReady := decide (u.state = .wWaitMem)

/-! ## The loaded value -/

/-- The byte of a loaded word. -/
def lbSel (addr readReg : Word) : BitVec 8 :=
  match (byteOffset addr).toNat with
  | 0 => readReg.extractLsb' 0 8
  | 1 => readReg.extractLsb' 8 8
  | 2 => readReg.extractLsb' 16 8
  | _ => readReg.extractLsb' 24 8

/-- A half word at an odd address reads as 0. -/
def lhSel (addr readReg : Word) : BitVec 16 :=
  match (byteOffset addr).toNat with
  | 0 => readReg.extractLsb' 0 16
  | 2 => readReg.extractLsb' 16 16
  | _ => 0

/-- The loaded value, extended to a word. -/
def selectedLoadedData (b : EXUOut) (readReg : Word) : Word :=
  match reqOp b with
  | .lb => (lbSel b.lsuAddr readReg).signExtend 32
  | .lh => (lhSel b.lsuAddr readReg).signExtend 32
  | .lw => readReg
  | .lbu => (lbSel b.lsuAddr readReg).setWidth 32
  | .lhu => (lhSel b.lsuAddr readReg).setWidth 32
  | _ => 0

/-- The value for the destination register. -/
def lsOut (b : EXUOut) : Word :=
  if reqOp b = .nop then b.exOut else selectedLoadedData b u.readReg

/-! ## Handshakes with the pipeline -/

/-- The unit has its result. -/
def outValid : Bool := decide (u.state = .waitReady)

/-- The registers in front of the unit may change when it holds no instruction, or when
the next stage takes the one it has finished. -/
def inReady (outReady : Bool) : Bool :=
  decide (u.state = .idle) && !x.valid || decide (u.state = .waitReady) && outReady

/-- The result is handed over. -/
def outFire (outReady : Bool) : Bool := u.outValid && outReady

/-- What the instruction in the unit is going to write. -/
def hazard : HazardInfo where
  valid := x.valid && x.bits.rdWe
  rd := x.bits.rdAddr
  data := u.lsOut x.bits
  dataValid := decide (reqOp x.bits = .nop) || decide (u.state = .waitReady)

/-! ## Exceptions -/

/-- The operation is a store. -/
def isStore (b : EXUOut) : Bool :=
  match reqOp b with
  | .sb | .sh | .sw => true
  | _ => false

/-- The exception: one from before, or an access fault. A store reports a page fault. -/
def excp (b : EXUOut) : ExceptionInfo where
  valid := b.exception.valid || u.accessFault
  cause :=
    if b.exception.valid then b.exception.cause
    else if isStore b then ExceptionCode.StoreAMOPageFault else ExceptionCode.LoadAccessFault
  tval := if b.exception.valid then b.exception.tval else b.lsuAddr

/-- What is handed over for an instruction. -/
def bits (b : EXUOut) : LSUOut where
  lsOut := u.lsOut b
  rdAddr := b.rdAddr
  rdWe := b.rdWe
  csrRdAddr := b.csrRdAddr
  csrRdWe := b.csrRdWe
  csrRdData := b.csrRdData
  pc := b.pc
  inst := b.inst
  exception := u.excp b
  isTrapReturn := b.isTrapReturn
  isFenceI := b.isFenceI

/-! ## The clock edge -/

/-- The state after the cycle; a flush stops an instruction that has not begun. -/
def nextState (wbuFlush outReady : Bool) : LSUState :=
  match u.state with
  | .idle => if x.valid && !wbuFlush then entryState x.bits else .idle
  | .rAddr => if arFire (u.memOut x) m then .rWaitMem else .rAddr
  | .rWaitMem => if rFire (u.memOut x) m then .waitReady else .rWaitMem
  | .wAddr =>
      if awFire (u.memOut x) m then (if wFire (u.memOut x) m then .wWaitMem else .wData)
      else .wAddr
  | .wData => if wFire (u.memOut x) m then .wWaitMem else .wData
  | .wWaitMem => if bFire (u.memOut x) m then .waitReady else .wWaitMem
  | .waitReady => if u.outFire outReady then .idle else .waitReady

/-- A response with an error arrives. -/
def respErr : Bool :=
  rFire (u.memOut x) m && decide (m.r.bits.resp ≠ AXIResp.OKAY) ||
    bFire (u.memOut x) m && decide (m.b.bits.resp ≠ AXIResp.OKAY)

/-- The clock edge. -/
def next (wbuFlush outReady : Bool) : LSU where
  state := u.nextState x m wbuFlush outReady
  readReg := if rFire (u.memOut x) m then m.r.bits.data else u.readReg
  accessFault := if u.state = .idle then false else if u.respErr x m then true else u.accessFault

end LSU

end Bailuwan
