/-
# The AXI4 bundles of `amba/AXI4.scala`

An `AXI4` port is split into the half its master drives (`AXI4.Out`) and the half
its slave drives (`AXI4.In`).  The last section states what a read burst is: the
beats a slave owes for an accepted read address, as a monitor that follows the
handshakes of one port.
-/
import Mathlib.Algebra.Group.Nat.Defs
import Mathlib.Data.List.Basic

namespace Bailuwan

/-- The 32-bit words of the machine (`UInt(p.XLEN.W)`). -/
abbrev Word := BitVec 32

/-! ## Channels -/

namespace AXIResp

/-- Normal access success. -/
def OKAY : BitVec 2 := 0
/-- Slave error. -/
def SLVERR : BitVec 2 := 2
/-- Decode error, by an interconnect without a slave at the address. -/
def DECERR : BitVec 2 := 3

end AXIResp

namespace AXIBurstType

/-- Every beat is at the first address. -/
def FIXED : BitVec 2 := 0

/-- The address goes up by the size of a beat. -/
def INCR : BitVec 2 := 1

end AXIBurstType

/-- `aw`: a write request. -/
structure WriteAddressChannel where
  addr : Word := 0
  id : BitVec 4 := 0
  len : BitVec 8 := 0
  size : BitVec 3 := 0
  burst : BitVec 2 := 0
  deriving DecidableEq, Repr

/-- `w`: one beat of write data, with an enable for each byte. -/
structure WriteDataChannel where
  data : Word := 0
  strb : BitVec 4 := 0
  last : Bool := false
  deriving DecidableEq, Repr

/-- `b`: the response to a write. -/
structure WriteResponseChannel where
  resp : BitVec 2 := 0
  id : BitVec 4 := 0
  deriving DecidableEq, Repr

/-- `ar`: a read request for a burst of `len + 1` beats. -/
structure ReadAddressChannel where
  addr : Word := 0
  id : BitVec 4 := 0
  len : BitVec 8 := 0
  size : BitVec 3 := 0
  burst : BitVec 2 := 0
  deriving DecidableEq, Repr

/-- `r`: one beat of read data. -/
structure ReadDataChannel where
  data : Word := 0
  resp : BitVec 2 := 0
  last : Bool := false
  id : BitVec 4 := 0
  deriving DecidableEq, Repr

/-- A payload with its valid bit, the producer's half of `Decoupled`/`Irrevocable`. -/
structure Valid (α : Type*) where
  valid : Bool
  bits : α
  deriving DecidableEq, Repr

namespace AXI4

/-- The signals the master of a port drives; `0.U.asTypeOf` is the default value. -/
structure Out where
  aw : Valid WriteAddressChannel := ⟨false, {}⟩
  w : Valid WriteDataChannel := ⟨false, {}⟩
  bReady : Bool := false
  ar : Valid ReadAddressChannel := ⟨false, {}⟩
  rReady : Bool := false
  deriving DecidableEq, Repr

/-- The signals the slave of a port drives. -/
structure In where
  awReady : Bool := false
  wReady : Bool := false
  b : Valid WriteResponseChannel := ⟨false, {}⟩
  arReady : Bool := false
  r : Valid ReadDataChannel := ⟨false, {}⟩
  deriving DecidableEq, Repr

variable (o : Out) (i : In)

/-! ## Handshakes -/

/-- A write request is taken. -/
def awFire : Bool := o.aw.valid && i.awReady

/-- A beat of write data is taken. -/
def wFire : Bool := o.w.valid && i.wReady

/-- A write response is taken. -/
def bFire : Bool := i.b.valid && o.bReady

/-- A read request is taken. -/
def arFire : Bool := o.ar.valid && i.arReady

/-- A beat of read data is taken. -/
def rFire : Bool := i.r.valid && o.rReady

/-- The read handshake that ends a burst. -/
def rLastFire : Bool := rFire o i && i.r.bits.last

/-- The write handshake that ends the data of a write. -/
def wLastFire : Bool := wFire o i && o.w.bits.last

/-! ## Read bursts -/

/-- The address of beat `k` of a burst (`FIXED` stays, the others step by the beat size). -/
def beatAddr (ar : ReadAddressChannel) (k : ℕ) : Word :=
  if ar.burst = AXIBurstType.FIXED then ar.addr
  else ar.addr + BitVec.ofNat 32 (k * 2 ^ ar.size.toNat)

/-- A read burst being answered: the accepted address and the number of beats given. -/
structure ReadBurst where
  ar : ReadAddressChannel
  beat : ℕ
  deriving DecidableEq, Repr

/-- The burst a port is answering after a cycle. -/
def readNext (m : Option ReadBurst) (o : Out) (i : In) : Option ReadBurst :=
  match m with
  | none => if arFire o i then some ⟨o.ar.bits, 0⟩ else none
  | some b =>
      if rFire o i then
        if i.r.bits.last then none else some { b with beat := b.beat + 1 }
      else some b

/-- A slave answers reads in bursts: it offers a beat only for an accepted address,
and marks exactly the beat number `len` (counted from 0) as the last. -/
def ReadsInBursts (m : Option ReadBurst) (i : In) : Prop :=
  i.r.valid = true → ∃ b, m = some b ∧ (i.r.bits.last = true ↔ b.beat = b.ar.len.toNat)

/-- A slave answers reads without error from the memory `mem`. -/
def ReadsFrom (mem : Word → Word) (m : Option ReadBurst) (i : In) : Prop :=
  i.r.valid = true → ∀ b, m = some b →
    i.r.bits.resp = AXIResp.OKAY ∧ i.r.bits.data = mem (beatAddr b.ar b.beat)

@[simp] theorem readNext_none_of_not_fire {o : Out} {i : In} (h : arFire o i = false) :
    readNext none o i = none := by
  simp [readNext, h]

/-- A burst begins at its first beat. -/
theorem readNext_none_of_fire {o : Out} {i : In} (h : arFire o i = true) :
    readNext none o i = some ⟨o.ar.bits, 0⟩ := by
  simp [readNext, h]

theorem readNext_some_of_not_fire {b : ReadBurst} {o : Out} {i : In} (h : rFire o i = false) :
    readNext (some b) o i = some b := by
  simp [readNext, h]

/-- The last beat ends the burst. -/
theorem readNext_some_of_last {b : ReadBurst} {o : Out} {i : In} (h : rFire o i = true)
    (hl : i.r.bits.last = true) : readNext (some b) o i = none := by
  simp [readNext, h, hl]

/-- Every other beat leads to the next one. -/
theorem readNext_some_of_not_last {b : ReadBurst} {o : Out} {i : In} (h : rFire o i = true)
    (hl : i.r.bits.last = false) :
    readNext (some b) o i = some { b with beat := b.beat + 1 } := by
  simp [readNext, h, hl]

/-! ## An answering slave -/

/-- A slave that accepts an address when it owes no burst and offers one beat of the
burst it owes in every cycle, with the given response code. -/
def answer (mem : Word → Word) (resp : BitVec 2) (m : Option ReadBurst) : In where
  arReady := m.isNone
  r := match m with
    | none => ⟨false, {}⟩
    | some b =>
        ⟨true, { data := mem (beatAddr b.ar b.beat), resp := resp
                 last := decide (b.beat = b.ar.len.toNat) }⟩

/-- A slave that answers in every cycle answers in bursts. -/
theorem answer_readsInBursts (mem : Word → Word) (resp : BitVec 2) (m : Option ReadBurst) :
    ReadsInBursts m (answer mem resp m) := by
  cases m with
  | none => simp [ReadsInBursts, answer]
  | some b => simp [ReadsInBursts, answer]

/-- It answers from the contents it is given. -/
theorem answer_readsFrom (mem : Word → Word) (m : Option ReadBurst) :
    ReadsFrom mem m (answer mem AXIResp.OKAY m) := by
  cases m with
  | none => simp [ReadsFrom, answer]
  | some b => simp [ReadsFrom, answer]

end AXI4

end Bailuwan
