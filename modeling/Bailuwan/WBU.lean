/-
# Write-back (`core/WBU.scala`, `core/CSRFile.scala`, `core/RegFile.scala`)

The last stage writes the register file and the CSR file, and redirects the fetch for
exceptions, `mret` and `fence.i`.
-/
import Bailuwan.LSU

namespace Bailuwan

/-! ## The write-back stage -/

namespace WBU

variable (x : Valid LSUOut)

/-- The destination register is written: an instruction with an exception writes none. -/
def rdWe : Bool := x.valid && x.bits.rdWe && !x.bits.exception.valid

/-- The CSR is written. -/
def csrRdWe : Bool := x.valid && x.bits.csrRdWe && !x.bits.exception.valid

/-- The exception that is taken. -/
def exception : ExceptionInfo :=
  { x.bits.exception with valid := x.valid && x.bits.exception.valid }

/-- The fetch is redirected: by an exception, by `mret` and by `fence.i`. -/
def redirectValid : Bool :=
  x.valid && (x.bits.exception.valid || x.bits.isTrapReturn || x.bits.isFenceI)

/-- Where to; `mret` goes to `mepc` whether there is an exception or not. -/
def redirectTarget (mtvec mepc : Word) : Word :=
  if x.bits.isTrapReturn then mepc
  else if x.bits.isFenceI then x.bits.pc + 4
  else mtvec

/-- `fence.i` flushes the cache. -/
def icacheFlush : Bool := x.valid && x.bits.isFenceI

/-- What the instruction in WBU writes. -/
def hazard : HazardInfo where
  valid := x.valid && x.bits.rdWe && !x.bits.exception.valid
  rd := x.bits.rdAddr
  data := x.bits.lsOut
  dataValid := true

end WBU

/-! ## The register file -/

/-- The 16 registers; an address of five bits is cut to four. -/
structure RegFile where
  regs : BitVec 4 → Word

namespace RegFile

variable (f : RegFile)

/-- `addr(3, 0)`. -/
def idx (addr : BitVec 5) : BitVec 4 := addr.extractLsb' 0 4

/-- A read port. -/
def read (addr : BitVec 5) : Word := f.regs (idx addr)

/-- The clock edge; register 0 is not written. -/
def next (rdAddr : BitVec 5) (rdData : Word) (rdWe : Bool) : RegFile where
  regs := if rdWe && decide (rdAddr ≠ 0) then Function.update f.regs (idx rdAddr) rdData
    else f.regs

end RegFile

/-! ## The CSR file -/

/-- The registers with state. -/
structure CSRFile where
  mstatus : Word
  mtvec : Word
  mepc : Word
  mcause : Word
  mtval : Word
  mcycle : BitVec 64
  deriving DecidableEq, Repr

namespace CSRFile

variable (f : CSRFile)

/-- What reset fixes. -/
def reset : CSRFile := ⟨0x1800, 0, 0, 0, 0, 0⟩

/-- What `mvendorid` reads as: `ysyx` in ASCII. -/
def mvendorid : Word := 0x79737978

/-- What `marchid` reads as. -/
def marchid : Word := 25100251

/-- `read_data`. -/
def read (addr : BitVec 12) : Word :=
  if addr = CSR.mstatus then f.mstatus
  else if addr = CSR.mtvec then f.mtvec
  else if addr = CSR.mepc then f.mepc
  else if addr = CSR.mcause then f.mcause
  else if addr = CSR.mtval then f.mtval
  else if addr = CSR.mcycle then f.mcycle.extractLsb' 0 32
  else if addr = CSR.mcycleh then f.mcycle.extractLsb' 32 32
  else if addr = CSR.mvendorid then mvendorid
  else if addr = CSR.marchid then marchid
  else 0

/-- The write port. -/
structure Write where
  enable : Bool
  addr : BitVec 12
  data : Word
  deriving DecidableEq, Repr

/-- `writable(addr, old_val)`. -/
def writable (w : Write) (addr : BitVec 12) (oldVal : Word) : Word :=
  if w.enable && decide (w.addr = addr) then w.data else oldVal

/-- The clock edge: an exception goes before a write to the same register. -/
def next (w : Write) (excp : ExceptionInfo) (epc : Word) : CSRFile where
  mstatus := writable w CSR.mstatus f.mstatus
  mtvec := writable w CSR.mtvec f.mtvec
  mepc := if excp.valid then epc else writable w CSR.mepc f.mepc
  mcause := if excp.valid then excp.cause else writable w CSR.mcause f.mcause
  mtval := if excp.valid then excp.tval else writable w CSR.mtval f.mtval
  mcycle := f.mcycle + 1

end CSRFile

end Bailuwan
