/-
# The branch prediction unit (`core/BPU.scala`)

A branch target buffer of 16 entries and a return address stack of 16 words.  The
buffer is trained by the execution stage; the stack is driven by the lookups alone.
-/
import Mathlib.Logic.Function.Basic
import Bailuwan.AXI4

namespace Bailuwan

/-- `BranchType`. -/
inductive BranchType
  | call
  | ret
  | jump
  | branch
  deriving DecidableEq, Repr

/-- `BTBWriteIO`. -/
structure BTBWrite where
  en : Bool
  pc : Word
  target : Word
  btype : BranchType
  deriving DecidableEq, Repr

/-! ## The branch target buffer -/

/-- The registers of `BTB(16)`. -/
structure BTB where
  validStorage : BitVec 4 → Bool
  tagStorage : BitVec 4 → BitVec 26
  targetStorage : BitVec 4 → Word
  typeStorage : BitVec 4 → BranchType

namespace BTB

variable (b : BTB)

/-- What reset fixes. -/
structure IsReset : Prop where
  validStorage : ∀ k, b.validStorage k = false

/-- `pc(INDEX_BITS + 1, 2)`. -/
def idxOf (pc : Word) : BitVec 4 := pc.extractLsb' 2 4

/-- `pc(XLEN - 1, INDEX_BITS + 2)`. -/
def tagOf (pc : Word) : BitVec 26 := pc.extractLsb' 6 26

/-- The entry of `pc` is valid and has its tag. -/
def hit (pc : Word) : Bool :=
  b.validStorage (idxOf pc) && decide (b.tagStorage (idxOf pc) = tagOf pc)

/-- The clock edge of the branch target buffer. -/
def next (w : BTBWrite) : BTB where
  validStorage := if w.en then Function.update b.validStorage (idxOf w.pc) true
    else b.validStorage
  tagStorage := if w.en then Function.update b.tagStorage (idxOf w.pc) (tagOf w.pc)
    else b.tagStorage
  targetStorage := if w.en then Function.update b.targetStorage (idxOf w.pc) w.target
    else b.targetStorage
  typeStorage := if w.en then Function.update b.typeStorage (idxOf w.pc) w.btype
    else b.typeStorage

end BTB

/-! ## The return address stack -/

/-- The registers of `RAS(16)`. -/
structure RAS where
  stack : BitVec 4 → Word
  ptr : BitVec 4

namespace RAS

variable (s : RAS)

/-- The address on the top of the stack. -/
def peek : Word := s.stack (s.ptr - 1)

/-- `ptr === 0.U`; the pointer is back at 0 when the stack is full. -/
def empty : Bool := decide (s.ptr = 0)

/-- The clock edge of the stack: a push together with a pop leaves the pointer. -/
def next (push : Bool) (pushVal : Word) (pop : Bool) : RAS where
  stack := if push then Function.update s.stack s.ptr pushVal else s.stack
  ptr := if push && pop then s.ptr else if push then s.ptr + 1 else if pop then s.ptr - 1
    else s.ptr

end RAS

/-! ## The prediction -/

/-- The registers of `BPU`. -/
structure BPU where
  btb : BTB
  ras : RAS

namespace BPU

variable (u : BPU) (pc : Word)

/-- What reset fixes. -/
structure IsReset : Prop where
  btb : u.btb.IsReset
  ras : u.ras.ptr = 0

/-- `pc` has an entry. -/
def valid : Bool := u.btb.hit pc

/-- The type of its branch. -/
def btype : BranchType := u.btb.typeStorage (BTB.idxOf pc)

/-- The target of its branch. -/
def target : Word := u.btb.targetStorage (BTB.idxOf pc)

/-- `pc` has a call. -/
def isCall : Bool := u.valid pc && decide (u.btype pc = .call)

/-- `pc` has a return. -/
def isRet : Bool := u.valid pc && decide (u.btype pc = .ret)

/-- The target is taken from the stack. -/
def useRas : Bool := u.isRet pc && !u.ras.empty

/-- Jumps are predicted taken, and so are backward branches. -/
def predictTaken : Bool :=
  u.valid pc && (u.isRet pc || u.isCall pc || decide (u.btype pc = .jump) ||
    decide (u.btype pc = .branch) && decide (u.target pc < pc))

/-- Where `pc` goes if its branch is taken. -/
def predictTarget : Word := if u.useRas pc then u.ras.peek else u.target pc

/-- The clock edge; a call pushes the address behind it. -/
def next (w : BTBWrite) : BPU where
  btb := u.btb.next w
  ras := u.ras.next (u.isCall pc) (pc + 4) (u.useRas pc)

end BPU

end Bailuwan
