/-
# The instruction cache (`core/ICache.scala`)

A direct-mapped cache of four 16-byte blocks.  `ICache α` holds the registers of
the module, generic in the user payload `α` as the source is in `gen`; the
combinational signals are functions of the registers and the inputs of a cycle,
and `ICache.next` is the register update at the clock edge.

The second half says once what a step does in each of the four states; the
correctness arguments of the later modules use those lemmas only.
-/
import Mathlib.Logic.Function.Basic
import Bailuwan.BlockAddress
import Bailuwan.Synchronous

namespace Bailuwan

open Synchronous AXI4

/-! ## Ports and registers -/

/-- A request of the fetch unit; `user` comes back with the response. -/
structure ICacheReq (α : Type*) where
  addr : Word
  user : α
  deriving DecidableEq, Repr

/-- A response: the word, its address and whether the fill had an error. -/
structure ICacheResp (α : Type*) where
  data : Word
  addr : Word
  error : Bool
  user : α
  deriving DecidableEq, Repr

/-- The states `s_idle`, `s_fill_addr`, `s_wait_mem` and `s_resp`. -/
inductive ICacheState
  | idle
  | fillAddr
  | waitMem
  | resp
  deriving DecidableEq, Repr

/-- The inputs of one cycle: the fetch side, the flush and the memory port. -/
structure ICacheIn (α : Type*) where
  req : Valid (ICacheReq α)
  respReady : Bool
  kill : Bool
  flush : Bool
  mem : AXI4.In
  deriving Repr

/-- The registers. -/
structure ICache (α : Type*) where
  state : ICacheState
  fillAddr : Word
  fillUser : α
  fillCnt : BitVec 2
  reqKilled : Bool
  err : Bool
  validStorage : BitVec 2 → Bool
  tagStorage : BitVec 2 → BitVec 26
  dataStorage : BitVec 2 → BitVec 2 → Word

namespace ICache

variable {α : Type*} (c : ICache α) (i : ICacheIn α)

/-- What reset fixes (`RegInit`); the other registers start with any contents. -/
structure IsReset : Prop where
  state : c.state = .idle
  fillCnt : c.fillCnt = 0
  reqKilled : c.reqKilled = false
  err : c.err = false
  validStorage : ∀ k, c.validStorage k = false

/-! ## Combinational signals -/

/-- `req.ready`: requests are taken in `s_idle` only. -/
def reqReady : Bool := decide (c.state = .idle)

/-- `req.fire` -/
def reqFire : Bool := i.req.valid && c.reqReady

/-- The tag of the line that is filled. -/
def fillTag : BitVec 26 := tagOf c.fillAddr

/-- The index of the line that is filled. -/
def fillIndex : BitVec 2 := indexOf c.fillAddr

/-- The word of it that was asked for. -/
def fillOffset : BitVec 2 := offsetOf c.fillAddr

/-- The line that is read: the one of the request, or of the fill. -/
def readIndex : BitVec 2 := if c.state = .idle then indexOf i.req.bits.addr else c.fillIndex

/-- The word of it that is read. -/
def readOffset : BitVec 2 := if c.state = .idle then offsetOf i.req.bits.addr else c.fillOffset

/-- The line is valid and has the tag of the request; a flush hides it at once. -/
def hit : Bool :=
  !i.flush && c.validStorage (c.readIndex i) &&
    decide (c.tagStorage (c.readIndex i) = tagOf i.req.bits.addr)

/-- `is_killed`: a kill now, or one that is remembered. -/
def isKilled : Bool := i.kill || c.reqKilled

/-- The memory port; `DontCare` bits are zero. -/
def memOut : AXI4.Out where
  ar := ⟨decide (c.state = .fillAddr),
    { addr := c.fillAddr &&& blockAlignMask, id := 0, len := 3, size := 2
      burst := AXIBurstType.INCR }⟩
  rReady := decide (c.state = .waitMem)
  w := ⟨false, { last := true }⟩

/-- The fill request is taken. -/
def arFire : Bool := AXI4.arFire c.memOut i.mem

/-- A beat of the fill arrives. -/
def rFire : Bool := AXI4.rFire c.memOut i.mem

/-- The last beat of the fill arrives. -/
def fillDone : Bool := c.rFire i && i.mem.r.bits.last

/-- A beat arrives with an error. -/
def memRespErr : Bool := c.rFire i && decide (i.mem.r.bits.resp ≠ AXIResp.OKAY)

/-- The fill has had an error, in this beat or before. -/
def fillError : Bool := c.err || c.memRespErr i

/-- An immediate hit, or the response state. -/
def respValid : Bool :=
  (c.reqFire i && c.hit i || decide (c.state = .resp)) && !c.isKilled i

/-- The response, from the request in `s_idle` and from the fill otherwise. -/
def respBits : ICacheResp α where
  data := c.dataStorage (c.readIndex i) (c.readOffset i)
  addr := if c.state = .idle then i.req.bits.addr else c.fillAddr
  user := if c.state = .idle then i.req.bits.user else c.fillUser
  error := if c.state = .idle then false else c.err

/-- `resp.fire` -/
def respFire : Bool := c.respValid i && i.respReady

/-! ## The clock edge -/

/-- The state after the cycle. A kill lets a fill go on to its last beat. -/
def nextState : ICacheState :=
  match c.state with
  | .idle =>
      if c.reqFire i && !i.kill then
        if c.hit i then (if c.respFire i then .idle else .resp)
        else (if c.arFire i then .waitMem else .fillAddr)
      else .idle
  | .fillAddr => if c.arFire i then .waitMem else .fillAddr
  | .waitMem => if c.fillDone i then (if c.isKilled i then .idle else .resp) else .waitMem
  | .resp => if c.respFire i || c.isKilled i then .idle else .resp

/-- The clock edge. -/
def next : ICache α where
  state := c.nextState i
  fillAddr := if c.reqFire i then i.req.bits.addr else c.fillAddr
  fillUser := if c.reqFire i then i.req.bits.user else c.fillUser
  fillCnt := if c.state = .idle then 0 else if c.rFire i then c.fillCnt + 1 else c.fillCnt
  -- a kill cannot be handled at once in `s_wait_mem`, so it is remembered
  reqKilled := if i.kill then true else if c.state = .idle then false else c.reqKilled
  err := if c.state = .idle then false else if c.rFire i then c.fillError i else c.err
  validStorage := fun k =>
    if i.flush then false
    else if c.fillDone i && decide (c.fillIndex = k) && !c.fillError i then true
    else c.validStorage k
  tagStorage :=
    if c.fillDone i then Function.update c.tagStorage c.fillIndex c.fillTag else c.tagStorage
  dataStorage :=
    if c.rFire i then
      Function.update c.dataStorage c.fillIndex
        (Function.update (c.dataStorage c.fillIndex) c.fillCnt i.mem.r.bits.data)
    else c.dataStorage

/-- The cache as a synchronous machine. -/
def machine (α : Type*) : Machine (ICache α) (ICacheIn α) where
  init := IsReset
  next := next

/-! ## The memory port follows the state -/

@[simp] theorem memOut_arValid : c.memOut.ar.valid = decide (c.state = .fillAddr) := rfl
@[simp] theorem memOut_rReady : c.memOut.rReady = decide (c.state = .waitMem) := rfl

theorem arFire_eq : c.arFire i = (decide (c.state = .fillAddr) && i.mem.arReady) := rfl
theorem rFire_eq : c.rFire i = (i.mem.r.valid && decide (c.state = .waitMem)) := rfl

/-- A beat comes in `wait_mem` only. -/
theorem state_of_rFire (h : c.rFire i = true) : c.state = .waitMem := by
  simp only [rFire_eq, Bool.and_eq_true, decide_eq_true_eq] at h
  exact h.2

/-- A fill ends in `wait_mem` only. -/
theorem state_of_fillDone (h : c.fillDone i = true) : c.state = .waitMem := by
  simp only [fillDone, Bool.and_eq_true] at h
  exact c.state_of_rFire i h.1

/-- It ends with a beat. -/
theorem rFire_of_fillDone (h : c.fillDone i = true) : c.rFire i = true := by
  simp only [fillDone, Bool.and_eq_true] at h
  exact h.1

/-- A request is accepted in `idle` only. -/
theorem state_of_reqFire (h : c.reqFire i = true) : c.state = .idle := by
  simp only [reqFire, reqReady, Bool.and_eq_true, decide_eq_true_eq] at h
  exact h.2

end ICache

end Bailuwan
