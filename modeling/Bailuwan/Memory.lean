/-
# A memory behind a port

A byte-addressed memory as the slave of an AXI4 port.  `Memory` follows the handshakes
of the port: the beats stored so far, the read burst being answered and the write being
taken.  `Memory.Answers` is the contract of such a slave in one cycle; `respond` is a
slave that keeps it.
-/
import Bailuwan.BlockAddress

namespace Bailuwan

open AXI4

/-! ## Bytes and words -/

/-- The contents of a memory. -/
abbrev Bytes := Word → BitVec 8

/-- Byte `k` of a word, byte 0 being the least significant. -/
def byteOf (w : Word) (k : ℕ) : BitVec 8 := w.extractLsb' (8 * k) 8

/-- The word that starts at an address, in little-endian order. -/
def wordAt (b : Bytes) (a : Word) : Word := b (a + 3) ++ b (a + 2) ++ b (a + 1) ++ b a

/-- The word around an address. -/
def alignedWord (b : Bytes) (a : Word) : Word := wordAt b (wordAlign a)

/-- A memory given by its words. -/
def ofWords (f : Word → Word) : Bytes := fun a => byteOf (f (wordAlign a)) (a.toNat % 4)

/-! ## The slave -/

/-- A beat of write data with the address it goes to. -/
abbrev StoredBeat := Word × WriteDataChannel

namespace StoredBeat

/-- The position of an address from the word the beat goes to. -/
def lane (s : StoredBeat) (a : Word) : ℕ := (a - wordAlign s.1).toNat

/-- The beat writes the byte at `a`. -/
def covers (s : StoredBeat) (a : Word) : Bool :=
  decide (s.lane a < 4) && s.2.strb.getLsbD (s.lane a)

end StoredBeat

/-- What has gone over a port: the beats written, and what is owed for reads and writes. -/
structure Memory where
  stores : List StoredBeat := []
  reading : Option ReadBurst := none
  writing : Option Word := none
  written : Bool := false

namespace Memory

variable (init : Bytes) (m : Memory) (o : Out) (i : In)

/-- The contents: what was stored last, else what was there in the beginning. -/
def bytes : Bytes := fun a =>
  match m.stores.find? fun s => s.covers a with
  | some s => byteOf s.2.data (s.lane a)
  | none => init a

/-- The address of the write being taken; the masters write single beats. -/
def writeAddr : Word := m.writing.getD o.aw.bits.addr

/-- The account after a cycle. -/
def next : Memory where
  stores := if wFire o i then (m.writeAddr o, o.w.bits) :: m.stores else m.stores
  reading := readNext m.reading o i
  writing := if bFire o i then none
    else if awFire o i then some o.aw.bits.addr else m.writing
  written := if bFire o i then false else m.written || wLastFire o i

/-- What a memory does in one cycle: it answers the bursts it has accepted with OKAY and
its contents, takes no data before the address of the write, and responds to a write
with OKAY after its last beat. -/
structure Answers : Prop where
  bursts : ReadsInBursts m.reading i
  reads : ReadsFrom (alignedWord (m.bytes init)) m.reading i
  dataAfterAddress : wFire o i = true → m.writing.isSome = true ∨ awFire o i = true
  respAfterData : i.b.valid = true → m.writing.isSome = true ∧ m.written = true
  respOkay : i.b.valid = true → i.b.bits.resp = AXIResp.OKAY

/-- A memory that takes and gives whatever it can in every cycle. -/
def respond : In :=
  { answer (alignedWord (m.bytes init)) AXIResp.OKAY m.reading with
    awReady := m.writing.isNone
    wReady := m.writing.isSome && !m.written
    b := ⟨m.writing.isSome && m.written, {}⟩ }


/-- A beat changes the bytes it covers. -/
theorem bytes_cons {s : StoredBeat} (hs : m.stores = s :: l) (a : Word) : m.bytes init a =
    if s.covers a then byteOf s.2.data (s.lane a) else Memory.bytes init { stores := l } a := by
  simp only [bytes, hs, List.find?_cons]
  cases s.covers a <;> rfl

/-- The memory that answers in every cycle answers from its contents. -/
theorem respond_answers : m.Answers init o (m.respond init) where
  bursts := answer_readsInBursts _ _ _
  reads := answer_readsFrom _ _
  dataAfterAddress h := by
    simp only [wFire, respond, Bool.and_eq_true] at h
    exact .inl h.2.1
  respAfterData h := by simpa [respond] using h
  respOkay _ := rfl

end Memory

end Bailuwan
