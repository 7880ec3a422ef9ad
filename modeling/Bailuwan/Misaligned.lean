/-
# Misaligned loads and stores

Nothing in front of the bus checks the alignment of an access.  Over a memory that answers
with OKAY and its contents, a load outputs what it selects from the word around its
address (`lsOut_eq`) and a store leaves one beat in that word (`contents_of_store`).  Of
the misaligned accesses this is the access to the addressed bytes for a single one: the
store of a half word into the middle of its word (`misaligned_iff`).
-/
import Bailuwan.AccessFault
import Bailuwan.LaneMemory

namespace Bailuwan

open Synchronous AXI4

/-- A beat that is stored twice leaves what it leaves once. -/
theorem StoredBeat.apply_apply (s : StoredBeat) (b : Bytes) : s.apply (s.apply b) = s.apply b := by
  funext a
  simp only [StoredBeat.apply]
  split_ifs <;> rfl

namespace LSUStage

/-! ## What an access does to a memory -/

section Data

variable (r : machine.Run) (b : Bytes) (a : ℕ)

/-- The address and the beat on the write channels. -/
def beatOut (s : LSUStage) : StoredBeat := (s.memOut.aw.bits.addr, s.memOut.w.bits)

/-- A memory that held `b` in `a`, after `n` cycles. -/
def contentsAfter : ℕ → Bytes
  | 0 => b
  | n + 1 =>
      if wFire (r.st (a + n)).memOut (r.inp (a + n)).mem then
        (r.st (a + n)).beatOut.apply (contentsAfter n)
      else contentsAfter n

/-- Its contents in `t`. -/
def contents (t : ℕ) : Bytes := contentsAfter r b a (t - a)

/-- The memory responds with OKAY, and to a read with its contents. -/
def Honest (t : ℕ) : Prop :=
  ∀ u, a < u → u < t →
    (rFire (r.st u).memOut (r.inp u).mem = true → (r.inp u).mem.r.bits.resp = AXIResp.OKAY ∧
      (r.inp u).mem.r.bits.data = alignedWord b (r.st u).memOut.ar.bits.addr) ∧
    (bFire (r.st u).memOut (r.inp u).mem = true → (r.inp u).mem.b.bits.resp = AXIResp.OKAY)

variable {r b a} {t : ℕ}

/-- Every beat that is sent changes the contents. -/
theorem contents_succ (h : a ≤ t) :
    contents r b a (t + 1) = if wFire (r.st t).memOut (r.inp t).mem then
      (r.st t).beatOut.apply (contents r b a t) else contents r b a t := by
  rw [contents, contents, show t + 1 - a = t - a + 1 by omega, contentsAfter,
    show a + (t - a) = t by omega]

/-- What is honest up to a cycle is so before it. -/
theorem Honest.pred (h : Honest r b a (t + 1)) : Honest r b a t :=
  fun u h1 h2 => h u h1 (by omega)

/-- An honest memory causes no access fault. -/
theorem Honest.not_faulted (h : Honest r b a t) : ¬ Faulted r a t := by
  rintro ⟨u, h1, h2, hbad⟩
  obtain ⟨hr, hb⟩ := h u h1 h2
  simp only [badResponse, Bool.or_eq_true, Bool.and_eq_true, decide_eq_true_eq] at hbad
  rcases hbad with ⟨hf, hne⟩ | ⟨hf, hne⟩
  · exact hne (hr hf).1
  · exact hne (hb hf)

/-- A unit without a request moves nothing. -/
theorem no_fire_of_idle {s : LSUStage} {i : LSUStageIn} (h : s.unit.state = .idle) :
    wFire s.memOut i.mem = false ∧ rFire s.memOut i.mem = false := by
  simp [wFire, rFire, memOut, LSU.memOut, h]

/-- **What an access has done** while the unit is busy with it: once its data is taken the
memory holds the beat, and once it is answered the register holds the word. -/
theorem data_eq (h : LastAt (fun u => (r.st u).unit.state = .idle) a t)
    (hbusy : (r.st t).unit.state ≠ .idle) (hon : Honest r b a t) :
    contents r b a t = (if (tally r a t).w = 0 then b else (r.st t).beatOut.apply b) ∧
      ((tally r a t).r ≠ 0 →
        (r.st t).unit.readReg = alignedWord b (r.st t).reg.bits.lsuAddr) := by
  have hread : ∀ u, (r.st (u + 1)).unit.readReg =
      if rFire (r.st u).memOut (r.inp u).mem then (r.inp u).mem.r.bits.data
      else (r.st u).unit.readReg := by
    intro u
    rw [st_succ]
    rfl
  have hw : ∀ u, a ≤ u → (tally r a (u + 1)).w =
      (tally r a u).w + (wFire (r.st u).memOut (r.inp u).mem).toNat := fun u hu => count_succ _ hu
  have hr : ∀ u, a ≤ u → (tally r a (u + 1)).r =
      (tally r a u).r + (rFire (r.st u).memOut (r.inp u).mem).toNat := fun u hu => count_succ _ hu
  revert hon
  refine LastAt.since h hbusy (fun _ _ => ?_) fun u hau hlast hidle hnext ih hon => ?_
  · -- nothing moves in the cycle that takes the instruction
    obtain ⟨hfw, hfr⟩ := no_fire_of_idle (i := r.inp a) h.2.1
    rw [contents_succ le_rfl, hread, hw a le_rfl, hr a le_rfl, hfw, hfr]
    simp [tally, contents, contentsAfter]
  · obtain ⟨h1, h2⟩ := ih hon.pred
    have hbits : (r.st (u + 1)).reg.bits = (r.st u).reg.bits := by
      rw [st_succ] at hnext ⊢
      exact reg_next_of_busy hidle hnext
    have hbeat : (r.st (u + 1)).beatOut = (r.st u).beatOut := by
      simp only [beatOut, memOut, LSU.memOut, hbits]
    rw [contents_succ hlast.1, hread, hw u hlast.1, hr u hlast.1, hbits, hbeat, h1]
    constructor
    · cases wFire (r.st u).memOut (r.inp u).mem with
      | true =>
          -- the same beat again changes nothing
          have hne : ¬ (tally r a u).w + true.toNat = 0 := by simp
          rw [if_pos rfl, if_neg hne]
          split_ifs
          · rfl
          · exact StoredBeat.apply_apply _ _
      | false => rfl
    · cases hf : rFire (r.st u).memOut (r.inp u).mem with
      | true =>
          intro _
          exact ((hon u hau (by omega)).1 hf).2
      | false => exact h2

/-- A load outputs what it selects from the word around its address, and stores nothing. -/
theorem lsOut_eq (h : Presents r a t) (hon : Honest r b a t)
    (hl : (LSU.reqOp (r.st t).reg.bits).loads = true) :
    (leaves r t).lsOut = { (r.st t).unit with
      readReg := alignedWord b (r.st t).reg.bits.lsuAddr }.lsOut (r.st t).reg.bits ∧
      contents r b a t = b := by
  have hwait : (r.st t).unit.state = .waitReady := by simpa [LSU.outValid] using h.2
  have htally := (tally_eq r h.1 (by simp [hwait])).1
  obtain ⟨hc, hread⟩ := data_eq h.1 (by simp [hwait]) hon
  have hentry : LSU.entryState (r.st t).reg.bits = .rAddr := by
    unfold LSU.entryState
    cases hop : LSU.reqOp (r.st t).reg.bits <;> simp [hop, LSUOp.loads] at hl ⊢
  rw [done, hwait, hentry] at htally
  rw [htally] at hc hread
  refine ⟨?_, by simpa using hc⟩
  rw [← hread (by simp)]
  rfl

/-- A store leaves its beat. -/
theorem contents_of_store (h : Presents r a t) (hon : Honest r b a t)
    (hs : (LSU.reqOp (r.st t).reg.bits).stores = true) :
    contents r b a t = (r.st t).beatOut.apply b := by
  have hwait : (r.st t).unit.state = .waitReady := by simpa [LSU.outValid] using h.2
  have htally := (tally_eq r h.1 (by simp [hwait])).1
  obtain ⟨hc, -⟩ := data_eq h.1 (by simp [hwait]) hon
  have hentry : LSU.entryState (r.st t).reg.bits = .wAddr := by
    unfold LSU.entryState
    cases hop : LSU.reqOp (r.st t).reg.bits <;> simp [hop, LSUOp.stores] at hs ⊢
  rw [done, hwait, hentry] at htally
  rw [htally] at hc
  simpa using hc

end Data

/-! ## The statement -/

section Statement

variable (r : machine.Run) (b : Bytes) (a t : ℕ)

/-- The instruction leaves with the exception of a misaligned access, and the bus has seen
nothing of it. -/
structure Traps : Prop where
  valid : (leaves r t).exception.valid = true
  cause : (leaves r t).exception.cause = if (LSU.reqOp (r.st t).reg.bits).stores then
    ExceptionCode.StoreAMOAddressMisaligned else ExceptionCode.LoadAddressMisaligned
  silent : tally r a t = {}

/-- The instruction leaves without an exception and has accessed the `n` bytes at its
address, and no others. -/
structure Bytewise (n : ℕ) : Prop where
  noExcp : (leaves r t).exception.valid = false
  load : (LSU.reqOp (r.st t).reg.bits).loads = true →
    (LSU.reqOp (r.st t).reg.bits).Extends n
      (fun k => b ((r.st t).reg.bits.lsuAddr + BitVec.ofNat 32 k)) (leaves r t).lsOut ∧
    contents r b a t = b
  store : (LSU.reqOp (r.st t).reg.bits).stores = true → ∀ x, contents r b a t x =
    if (x - (r.st t).reg.bits.lsuAddr).toNat < n then
      byteOf (r.st t).reg.bits.lsuStoreData (x - (r.st t).reg.bits.lsuAddr).toNat else b x

/-- **The statement about misaligned accesses**, for an operation on `n` bytes and an address:
whatever the data and the memory are, the access traps or is the one of the bytes. -/
def NotSilentlyWrong (op : LSUOp) (n : ℕ) (addr : Word) : Prop :=
  ∀ (r : machine.Run) (b : Bytes) (a t : ℕ), Presents r a t → Honest r b a t →
    LSU.reqOp (r.st t).reg.bits = op → (r.st t).reg.bits.lsuAddr = addr →
    Traps r a t ∨ Bytewise r b a t n

end Statement

/-! ## A memory that answers at once -/

section Answering

variable (x : EXUOut) (b : Bytes)

/-- The unit is offered an instruction in cycle 0 and takes it in cycle 1; the memory takes
address and data in cycle 2 and responds in cycle 3. -/
def answers (t : ℕ) : LSUStageIn where
  prev := if t = 0 then some x else none
  mem := { arReady := decide (t = 2), awReady := decide (t = 2), wReady := decide (t = 2)
           r := ⟨decide (t = 3), { data := alignedWord b x.lsuAddr }⟩, b := ⟨decide (t = 3), {}⟩ }
  wbuFlush := false
  outReady := true

/-- A unit that is given the operation and a slave that answers at once. -/
def answering : machine.Run :=
  machine.run ⟨⟨.idle, 0, false⟩, ⟨false, x⟩⟩ ⟨⟨rfl, rfl⟩, rfl⟩ (answers x b)

variable {x}

theorem answering_succ (t : ℕ) :
    (answering x b).st (t + 1) = ((answering x b).st t).next (answers x b t) := rfl

theorem answering_one : (answering x b).st 1 = ⟨⟨.idle, 0, false⟩, ⟨true, x⟩⟩ := rfl

/-- An access that is answered at once sends its address first. -/
theorem answering_two (h : LSU.entryState x ≠ .waitReady) :
    (answering x b).st 2 = ⟨⟨LSU.entryState x, 0, false⟩, ⟨true, x⟩⟩ := by
  rw [answering_succ, answering_one]
  rcases LSU.entryState_cases x with he | he | he
  · exact absurd he h
  · simp [next, LSU.next, LSU.nextState, LSU.inReady, pipelineConnect, he, LSU.memOut, rFire,
      answers]
  · simp [next, LSU.next, LSU.nextState, LSU.inReady, pipelineConnect, he, LSU.memOut, rFire,
      answers]

/-- It waits for the answer in the next cycle. -/
theorem answering_three (h : LSU.entryState x ≠ .waitReady) :
    (answering x b).st 3 =
      ⟨⟨if LSU.entryState x = .rAddr then .rWaitMem else .wWaitMem, 0, false⟩, ⟨true, x⟩⟩ := by
  rw [answering_succ, answering_two b h]
  rcases LSU.entryState_cases x with he | he | he
  · exact absurd he h
  · simp [next, LSU.next, LSU.nextState, LSU.inReady, pipelineConnect, he, LSU.memOut, rFire,
      answers, arFire, LSU.respErr, bFire]
  · simp [next, LSU.next, LSU.nextState, LSU.inReady, pipelineConnect, he, LSU.memOut, rFire,
      answers, awFire, wFire, LSU.respErr, bFire]

/-- It has the answer in the cycle after. -/
theorem answering_four (h : LSU.entryState x ≠ .waitReady) :
    ((answering x b).st 4).unit.state = .waitReady ∧ ((answering x b).st 4).reg = ⟨true, x⟩ := by
  rw [answering_succ, answering_three b h]
  rcases LSU.entryState_cases x with he | he | he
  · exact absurd he h
  · simp [next, LSU.next, LSU.nextState, LSU.inReady, pipelineConnect, he, LSU.memOut, rFire,
      answers]
  · simp [next, LSU.next, LSU.nextState, LSU.inReady, pipelineConnect, he, LSU.memOut, bFire,
      answers]

/-- It is presented in that cycle. -/
theorem answering_presents (h : LSU.entryState x ≠ .waitReady) :
    Presents (answering x b) 1 4 := by
  have h4 := (answering_four b h).1
  refine ⟨⟨by decide, rfl, fun u h1 h2 => ?_⟩, by simp [LSU.outValid, h4]⟩
  show ¬ ((answering x b).st u).unit.state = .idle
  interval_cases u
  · rw [answering_two b h]
    rcases LSU.entryState_cases x with he | he | he <;> simp [he]
  · rw [answering_three b h]
    split_ifs <;> decide
  · rw [h4]
    decide

/-- Its memory is honest. -/
theorem answering_honest (h : LSU.entryState x ≠ .waitReady) :
    Honest (answering x b) b 1 4 := by
  intro u h1 h2
  have hin : (answering x b).inp u = answers x b u := rfl
  refine ⟨fun _ => ⟨by rw [hin]; rfl, ?_⟩, fun _ => by rw [hin]; rfl⟩
  rw [hin]
  interval_cases u
  · rw [answering_two b h]
    rfl
  · rw [answering_three b h]
    rfl

end Answering

/-! ## Which accesses are those of the bytes -/

/-- An access to memory is made: no instruction with an operation for one traps here. -/
theorem not_traps {r : machine.Run} {b : Bytes} {a t : ℕ} (h : Presents r a t)
    (hon : Honest r b a t) (hop : LSU.entryState (r.st t).reg.bits ≠ .waitReady) :
    ¬ Traps r a t := by
  intro htrap
  have hvalid := leaves_of_not_faulted h hon.not_faulted
  rw [htrap.valid, reqOp_of_accesses hop] at hvalid
  exact absurd hvalid (by decide)

/-- An access with the given operation, address and data. -/
def accessOf (op : LSUOp) (addr data : Word) : EXUOut :=
  { storeWord with lsuOp := op, lsuAddr := addr, lsuStoreData := data }

section Necessary

variable {op : LSUOp} {n : ℕ} {addr : Word} (h : NotSilentlyWrong op n addr)
include h

/-- An operation at an address that is not silently wrong is the access to the bytes, for
all data over all memories. -/
theorem NotSilentlyWrong.bytewise (data : Word) (b : Bytes)
    (hop : LSU.entryState (accessOf op addr data) ≠ .waitReady) :
    Bytewise (answering (accessOf op addr data) b) b 1 4 n := by
  have hreg := congrArg Valid.bits (answering_four b hop).2
  have hp := answering_presents b hop
  have hon := answering_honest b hop
  refine (h _ b 1 4 hp hon (by rw [hreg]; rfl) (by rw [hreg]; rfl)).resolve_left ?_
  exact not_traps hp hon (by rw [hreg]; exact hop)

/-- A load that is not silently wrong is extended from the bytes it names. -/
theorem NotSilentlyWrong.load (b : Bytes) (hl : op.loads = true) :
    op.Extends n (fun k => b (addr + BitVec.ofNat 32 k))
      ((⟨.waitReady, alignedWord b addr, false⟩ : LSU).lsOut (accessOf op addr 0)) := by
  have hop : LSU.entryState (accessOf op addr 0) ≠ .waitReady := by
    cases op <;> simp [LSUOp.loads] at hl <;>
      simp [LSU.entryState, LSU.reqOp, accessOf, storeWord]
  have hreg := congrArg Valid.bits (answering_four b hop).2
  have hbytes := (h.bytewise 0 b hop).load (by rw [hreg]; exact hl)
  have hout := lsOut_eq (answering_presents b hop) (answering_honest b hop) (by rw [hreg]; exact hl)
  rw [hout.1, hreg] at hbytes
  exact hbytes.1

/-- A store that is not silently wrong writes the bytes it names. -/
theorem NotSilentlyWrong.store (data : Word) (b : Bytes) (hs : op.stores = true) (a : Word) :
    StoredBeat.apply (beatOut ⟨⟨.wAddr, 0, false⟩, ⟨true, accessOf op addr data⟩⟩) b a =
      if (a - addr).toNat < n then byteOf data (a - addr).toNat else b a := by
  have hop : LSU.entryState (accessOf op addr data) ≠ .waitReady := by
    cases op <;> simp [LSUOp.stores] at hs <;>
      simp [LSU.entryState, LSU.reqOp, accessOf, storeWord]
  have hreg := congrArg Valid.bits (answering_four b hop).2
  have hbytes := (h.bytewise data b hop).store (by rw [hreg]; exact hs) a
  have hout := contents_of_store (answering_presents b hop) (answering_honest b hop)
    (by rw [hreg]; exact hs)
  rw [hout] at hbytes
  simp only [beatOut, memOut, LSU.memOut, hreg] at hbytes
  exact hbytes

end Necessary

/-- A half word at an odd address reads as 0. -/
theorem lh_wrong {op : LSUOp} {addr : Word} (hop : op = .lh ∨ op = .lhu)
    (ha : addr.toNat % 2 = 1) : ¬ NotSilentlyWrong op 2 addr := by
  intro h
  have hbyte := h.load (fun _ => 1) (by rcases hop with rfl | rfl <;> rfl) 0 (by decide)
  have hsel : ∀ word, LSU.lhSel addr word = 0 := by
    intro word
    have hk : addr.toNat % 4 = 1 ∨ addr.toNat % 4 = 3 := by omega
    rw [LSU.lhSel, toNat_byteOffset]
    rcases hk with hk | hk
    · rw [hk]
      rfl
    · rw [hk]
      rfl
  have hout : (⟨.waitReady, alignedWord (fun _ => 1) addr, false⟩ : LSU).lsOut
      (accessOf op addr 0) = 0 := by
    rcases hop with rfl | rfl
    · show (LSU.lhSel addr _).signExtend 32 = 0
      rw [hsel]
      rfl
    · show (LSU.lhSel addr _).setWidth 32 = 0
      rw [hsel]
      rfl
  rw [hout] at hbyte
  have hne : byteOf (0 : Word) 0 ≠ 1 := by decide
  exact hne hbyte

/-- A misaligned address is not the one of its word. -/
theorem wordAlign_ne {addr : Word} (ha : addr.toNat % 4 ≠ 0) : wordAlign addr ≠ addr := by
  intro heq
  have := congrArg BitVec.toNat heq
  rw [toNat_wordAlign] at this
  omega

/-- A word at an address that is not a multiple of 4 is read from the word before. -/
theorem lw_wrong {addr : Word} (ha : addr.toNat % 4 ≠ 0) : ¬ NotSilentlyWrong .lw 4 addr := by
  intro h
  have hbyte := h.load (fun a => if a = addr then 1 else 0) rfl 0 (by decide)
  have hout : (⟨.waitReady, alignedWord (fun a => if a = addr then 1 else 0) addr, false⟩ :
      LSU).lsOut (accessOf .lw addr 0) = alignedWord (fun a => if a = addr then 1 else 0) addr := rfl
  rw [hout, alignedWord, byteOf_wordAt _ _ (by decide)] at hbyte
  simp [wordAlign_ne ha] at hbyte

/-- The upper byte of a half word at the end of a word is lost. -/
theorem sh_wrong {addr : Word} (ha : addr.toNat % 4 = 3) : ¬ NotSilentlyWrong .sh 2 addr := by
  intro h
  have hbyte := h.store 0xffff (fun _ => 0) rfl (addr + 1)
  have hlane : StoredBeat.lane (beatOut ⟨⟨.wAddr, 0, false⟩, ⟨true, accessOf .sh addr 0xffff⟩⟩)
      (addr + 1) = 4 := by
    show (addr + 1 - wordAlign addr).toNat = 4
    have hlt := addr.isLt
    rw [BitVec.toNat_sub, BitVec.toNat_add, toNat_wordAlign, show (1 : Word).toNat = 1 from rfl]
    omega
  have hcov : StoredBeat.covers (beatOut ⟨⟨.wAddr, 0, false⟩, ⟨true, accessOf .sh addr 0xffff⟩⟩)
      (addr + 1) = false := by
    rw [StoredBeat.covers, hlane]
    rfl
  rw [StoredBeat.apply, hcov, show addr + 1 - addr = 1 by simp] at hbyte
  have hne : (0 : BitVec 8) ≠ byteOf 0xffff 1 := by decide
  exact hne hbyte

/-- A word at an address that is not a multiple of 4 overwrites the word before. -/
theorem sw_wrong {addr : Word} (ha : addr.toNat % 4 ≠ 0) : ¬ NotSilentlyWrong .sw 4 addr := by
  intro h
  have hbyte := h.store 1 (fun _ => 0) rfl (wordAlign addr)
  have hlane : StoredBeat.lane (beatOut ⟨⟨.wAddr, 0, false⟩, ⟨true, accessOf .sw addr 1⟩⟩)
      (wordAlign addr) = 0 := by
    show (wordAlign addr - wordAlign addr).toNat = 0
    simp
  have hcov : StoredBeat.covers (beatOut ⟨⟨.wAddr, 0, false⟩, ⟨true, accessOf .sw addr 1⟩⟩)
      (wordAlign addr) = true := by
    have hstrb : (beatOut ⟨⟨.wAddr, 0, false⟩, ⟨true, accessOf .sw addr 1⟩⟩).2.strb = 0xf := rfl
    rw [StoredBeat.covers, hlane, hstrb]
    decide
  have hout : ¬ (wordAlign addr - addr).toNat < 4 := by
    have hlt := addr.isLt
    rw [BitVec.toNat_sub, toNat_wordAlign]
    omega
  rw [StoredBeat.apply, hcov, hlane, if_pos rfl, if_neg hout] at hbyte
  have hne : byteOf (1 : Word) 0 ≠ 0 := by decide
  exact hne hbyte

/-- A store whose bytes are in one word stores them. -/
theorem bytewise_of_fits {r : machine.Run} {b : Bytes} {a t n : ℕ} (h : Presents r a t)
    (hon : Honest r b a t) (hs : (LSU.reqOp (r.st t).reg.bits).stores = true)
    (hn : (LSU.reqOp (r.st t).reg.bits).len = some n)
    (hfit : (r.st t).reg.bits.lsuAddr.toNat % 4 + n ≤ 4) : Bytewise r b a t n := by
  have hentry : LSU.entryState (r.st t).reg.bits ≠ .waitReady := by
    unfold LSU.entryState
    cases hop : LSU.reqOp (r.st t).reg.bits <;> simp [hop, LSUOp.stores] at hs ⊢
  refine ⟨?_, fun hl => ?_, fun _ x => ?_⟩
  · rw [leaves_of_not_faulted h hon.not_faulted]
    exact reqOp_of_accesses hentry
  · cases hop : LSU.reqOp (r.st t).reg.bits <;> simp [hop, LSUOp.stores, LSUOp.loads] at hs hl
  · rw [contents_of_store h hon hs, beatOut, memOut, LSU.memOut_w hs hn hfit]
    exact congrFun (storeBeat_writes b _ hfit) x

/-- **Misaligned accesses**: an access at an address that is not naturally aligned traps or
is the access to the bytes, whatever the data and the memory are, if and only if it stores
a half word into the middle of its word. -/
theorem misaligned_iff {op : LSUOp} {n : ℕ} {addr : Word} (hn : op.len = some n)
    (ha : addr.toNat % n ≠ 0) :
    NotSilentlyWrong op n addr ↔ op = .sh ∧ addr.toNat % 4 = 1 := by
  constructor
  · intro h
    cases op <;> simp only [LSUOp.len, reduceCtorEq, Option.some_inj] at hn <;> subst hn
    case lb | lbu | sb => omega
    case lh => exact absurd h (lh_wrong (.inl rfl) (by omega))
    case lhu => exact absurd h (lh_wrong (.inr rfl) (by omega))
    case lw => exact absurd h (lw_wrong ha)
    case sw => exact absurd h (sw_wrong ha)
    case sh =>
        refine ⟨rfl, ?_⟩
        by_contra hne
        exact sh_wrong (by omega) h
  · rintro ⟨rfl, h1⟩ r b a t hp hon hop haddr
    rw [LSUOp.len, Option.some_inj] at hn
    subst hn
    refine .inr (bytewise_of_fits hp hon (by rw [hop]; rfl) (by rw [hop]; rfl) ?_)
    rw [haddr]
    omega

/-- A word is not loaded from address 1. -/
theorem lw_at_one : ¬ NotSilentlyWrong .lw 4 1 := fun h =>
  absurd ((@misaligned_iff .lw 4 1 rfl (by decide)).mp h).1 (by decide)

/-- A half word at the end of a word is silently wrong. -/
theorem misaligned_silently_wrong :
    ¬ ∀ (op : LSUOp) (n : ℕ) (addr : Word), op.len = some n → addr.toNat % n ≠ 0 →
      NotSilentlyWrong op n addr := by
  intro h
  exact @sh_wrong 3 (by decide) (h .sh 2 3 rfl (by decide))

end LSUStage

end Bailuwan
