/-
# The bus arbiter (`amba/AXI4Arbiter.scala`)

`n` masters share one slave port.  Reads and writes are arbitrated independently:
an idle arbiter registers the lowest-numbered requesting master as the owner, and
connects it from the next cycle until the handshake that ends its transaction.
-/
import Mathlib.Data.Fin.Basic
import Mathlib.Data.List.FinRange
import Bailuwan.AXI4

namespace Bailuwan

open AXI4

/-- `r_idle`/`r_busy` and `w_idle`/`w_busy`. -/
inductive BusState
  | idle
  | busy
  deriving DecidableEq, Repr

/-- The registers of `AXI4Arbiter(n)`. -/
structure AXI4Arbiter (n : ℕ) where
  rState : BusState
  rOwnerId : Fin n
  wState : BusState
  wOwnerId : Fin n
  deriving DecidableEq, Repr

/-- Masters and slaves are numbered from zero. -/
instance (priority := 2000) indexNeZero (n : ℕ) : @NeZero ℕ Zero.ofOfNat0 (n + 1) :=
  Nat.instNeZeroSucc

/-- `PriorityEncoder`: the lowest index that is set, the highest index if none is. -/
def priorityEncoder {n : ℕ} (req : Fin (n + 1) → Bool) : Fin (n + 1) :=
  ((List.finRange (n + 1)).find? req).getD (Fin.last n)

/-- If some master asks, the one that is chosen does. -/
theorem priorityEncoder_set {n : ℕ} {req : Fin (n + 1) → Bool} {k : Fin (n + 1)}
    (h : req k = true) : req (priorityEncoder req) = true := by
  cases hf : (List.finRange (n + 1)).find? req with
  | none => exact absurd h (by simpa using List.find?_eq_none.mp hf k (List.mem_finRange k))
  | some j => simpa [priorityEncoder, hf] using List.find?_some hf

namespace AXI4Arbiter

variable {n : ℕ} (a : AXI4Arbiter (n + 1)) (masters : Fin (n + 1) → Out) (slave : In)

/-- What reset fixes. -/
def reset : AXI4Arbiter (n + 1) := ⟨.idle, 0, .idle, 0⟩

/-! ## Combinational signals -/

/-- What the arbiter drives on its slave port. -/
def slaveOut : Out where
  ar := if a.rState = .busy then (masters a.rOwnerId).ar else ⟨false, {}⟩
  rReady := if a.rState = .busy then (masters a.rOwnerId).rReady else false
  aw := if a.wState = .busy then (masters a.wOwnerId).aw else ⟨false, {}⟩
  w := if a.wState = .busy then (masters a.wOwnerId).w else ⟨false, {}⟩
  bReady := if a.wState = .busy then (masters a.wOwnerId).bReady else false

/-- What master `k` sees: all masters are blocked but the owners. -/
def masterIn (k : Fin (n + 1)) : In where
  arReady := if a.rState = .busy ∧ k = a.rOwnerId then slave.arReady else false
  r := if a.rState = .busy ∧ k = a.rOwnerId then slave.r else ⟨false, {}⟩
  awReady := if a.wState = .busy ∧ k = a.wOwnerId then slave.awReady else false
  wReady := if a.wState = .busy ∧ k = a.wOwnerId then slave.wReady else false
  b := if a.wState = .busy ∧ k = a.wOwnerId then slave.b else ⟨false, {}⟩

/-- `masters.map(_.ar.valid).reduce(_ || _)`: some master asks for a read. -/
def anyRead : Bool := (List.finRange (n + 1)).any fun k => (masters k).ar.valid

/-- Some master asks for a write. -/
def anyWrite : Bool := (List.finRange (n + 1)).any fun k => (masters k).aw.valid

/-! ## The clock edge -/

/-- The clock edge: an idle channel takes the first master that asks and keeps it up to the last
beat or the response. -/
def next : AXI4Arbiter (n + 1) where
  rState := match a.rState with
    | .idle => if anyRead masters then .busy else .idle
    | .busy =>
        if rLastFire (masters a.rOwnerId) (a.masterIn slave a.rOwnerId) then .idle else .busy
  rOwnerId := if a.rState = .idle then priorityEncoder fun k => (masters k).ar.valid
    else a.rOwnerId
  wState := match a.wState with
    | .idle => if anyWrite masters then .busy else .idle
    | .busy => if bFire (masters a.wOwnerId) (a.masterIn slave a.wOwnerId) then .idle else .busy
  wOwnerId := if a.wState = .idle then priorityEncoder fun k => (masters k).aw.valid
    else a.wOwnerId

end AXI4Arbiter

end Bailuwan
