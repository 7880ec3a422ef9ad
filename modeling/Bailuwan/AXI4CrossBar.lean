/-
# The crossbar and its error slave (`amba/AXI4CrossBar.scala`)

One master reaches `n` slaves by address; the error slave, numbered `n`, takes the
addresses that no declared range contains.  As in the arbiter, reads and writes
register their owner in the idle state and keep it until the transaction ends.
-/
import Bailuwan.AXI4Arbiter

namespace Bailuwan

open AXI4

/-! ## The error slave -/

/-- `w_idle`, `w_wait_data` and `w_resp`. -/
inductive ErrorWriteState
  | idle
  | waitData
  | resp
  deriving DecidableEq, Repr

/-- The registers of `AXI4ErrorSlave`. -/
structure AXI4ErrorSlave where
  rState : BusState
  rId : BitVec 4
  rLen : BitVec 8
  rCnt : BitVec 8
  wState : ErrorWriteState
  wId : BitVec 4
  deriving DecidableEq, Repr

namespace AXI4ErrorSlave

variable (e : AXI4ErrorSlave) (o : Out)

/-- What reset fixes; the identifiers and counters start with any contents. -/
structure IsReset : Prop where
  rState : e.rState = .idle
  wState : e.wState = .idle

/-- The error slave's half of the port: every beat and every response is a decode error. -/
def ioIn : In where
  arReady := decide (e.rState = .idle)
  r := ⟨decide (e.rState = .busy),
    { data := 25100251, resp := AXIResp.DECERR, id := e.rId, last := decide (e.rCnt = 0) }⟩
  awReady := decide (e.wState = .idle)
  wReady := decide (e.wState = .waitData)
  b := ⟨decide (e.wState = .resp), { resp := AXIResp.DECERR, id := e.wId }⟩

/-- The clock edge of the error slave. -/
def next : AXI4ErrorSlave where
  rState := match e.rState with
    | .idle => if arFire o e.ioIn then .busy else .idle
    | .busy => if rLastFire o e.ioIn then .idle else .busy
  rId := if arFire o e.ioIn then o.ar.bits.id else e.rId
  rLen := if arFire o e.ioIn then o.ar.bits.len else e.rLen
  rCnt := if arFire o e.ioIn then o.ar.bits.len else if rFire o e.ioIn then e.rCnt - 1 else 0
  wState := match e.wState with
    | .idle => if awFire o e.ioIn then .waitData else .idle
    | .waitData => if wLastFire o e.ioIn then .resp else .waitData
    | .resp => if bFire o e.ioIn then .idle else .resp
  -- `w_id` is declared and never assigned
  wId := e.wId

end AXI4ErrorSlave

/-! ## Address decoding -/

/-- The address ranges of the slaves, as `slaves_map` gives them. -/
abbrev SlavesMap (n : ℕ) := Fin n → List (ℕ × ℕ)

/-- `matches.orR`: one of the ranges of a slave contains the address. -/
def addrMatches (ranges : List (ℕ × ℕ)) (addr : Word) : Bool :=
  ranges.any fun rng => decide (rng.1 ≤ addr.toNat) && decide (addr.toNat < rng.2)

/-- `MuxCase(err_idx, addr_mux_map(addr))`: the first slave that matches. -/
def candidate {n : ℕ} (slavesMap : SlavesMap n) (addr : Word) : Fin (n + 1) :=
  match (List.finRange n).find? fun k => addrMatches (slavesMap k) addr with
  | some k => k.castSucc
  | none => Fin.last n

/-! ## The crossbar -/

/-- The registers of `AXI4CrossBar`, with those of the error slave inside it. -/
structure AXI4CrossBar (n : ℕ) where
  rState : BusState
  rOwnerId : Fin (n + 1)
  wState : BusState
  wOwnerId : Fin (n + 1)
  errSlave : AXI4ErrorSlave
  deriving DecidableEq, Repr

namespace AXI4CrossBar

variable {n : ℕ} (x : AXI4CrossBar n) (slavesMap : SlavesMap n) (master : Out)
  (ext : Fin n → In)

/-- What reset fixes. -/
structure IsReset : Prop where
  rState : x.rState = .idle
  rOwnerId : x.rOwnerId = 0
  wState : x.wState = .idle
  wOwnerId : x.wOwnerId = 0
  errSlave : x.errSlave.IsReset

/-! ### Combinational signals -/

/-- What the slaves drive, the error slave being the last one. -/
def slaveIn : Fin (n + 1) → In := Fin.lastCases x.errSlave.ioIn ext

/-- What slave `k` sees: all slaves are blocked but the owners. -/
def slaveOut (k : Fin (n + 1)) : Out where
  ar := if x.rState = .busy ∧ k = x.rOwnerId then master.ar else ⟨false, {}⟩
  rReady := if x.rState = .busy ∧ k = x.rOwnerId then master.rReady else false
  aw := if x.wState = .busy ∧ k = x.wOwnerId then master.aw else ⟨false, {}⟩
  w := if x.wState = .busy ∧ k = x.wOwnerId then master.w else ⟨false, {}⟩
  bReady := if x.wState = .busy ∧ k = x.wOwnerId then master.bReady else false

/-- What the crossbar drives on its master port. -/
def masterIn : In where
  arReady := if x.rState = .busy then (x.slaveIn ext x.rOwnerId).arReady else false
  r := if x.rState = .busy then (x.slaveIn ext x.rOwnerId).r else ⟨false, {}⟩
  awReady := if x.wState = .busy then (x.slaveIn ext x.wOwnerId).awReady else false
  wReady := if x.wState = .busy then (x.slaveIn ext x.wOwnerId).wReady else false
  b := if x.wState = .busy then (x.slaveIn ext x.wOwnerId).b else ⟨false, {}⟩

/-! ### The clock edge -/

/-- The clock edge: an idle channel takes the slave at the address of the request. -/
def next : AXI4CrossBar n where
  rState := match x.rState with
    | .idle => if master.ar.valid then .busy else .idle
    | .busy =>
        if rLastFire (x.slaveOut master x.rOwnerId) (x.slaveIn ext x.rOwnerId) then .idle
        else .busy
  rOwnerId := if x.rState = .idle ∧ master.ar.valid then candidate slavesMap master.ar.bits.addr
    else x.rOwnerId
  wState := match x.wState with
    | .idle => if master.aw.valid then .busy else .idle
    | .busy =>
        if bFire (x.slaveOut master x.wOwnerId) (x.slaveIn ext x.wOwnerId) then .idle else .busy
  wOwnerId := if x.wState = .idle ∧ master.aw.valid then candidate slavesMap master.aw.bits.addr
    else x.wOwnerId
  errSlave := x.errSlave.next (x.slaveOut master (Fin.last n))

end AXI4CrossBar

end Bailuwan
