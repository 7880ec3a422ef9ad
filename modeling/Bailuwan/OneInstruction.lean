/-
# One instruction on the core and on the reference model

`OneInst.outcome` is what the stages of the core make of one instruction that is alone in the
pipeline, on a memory that answers with OKAY: the next `pc`, the register file, the CSR
file and the memory.  In machine mode this is what the reference model makes of it, for
every word that the decoder accepts but `ebreak` (`OneInst.outcome_agrees`).

The instructions of RV32I are those of `decodeExec_eq`; the others are `ecall`, the
CSR instructions, `mret` and `fence.i` (`SystemRow`).
-/
import Bailuwan.CsrOrder
import Bailuwan.DecoderAcceptance
import Bailuwan.Refinement

namespace Bailuwan

open Nemu Rv32e

namespace OneInst

/-! ## One instruction on the core -/

section

variable (f : RegFile) (k : CSRFile) (mem : Bytes) (pc inst : Word)

/-- The decoder, with nothing to forward. -/
def decoded : IDUOut :=
  IDU.bits [] ⟨pc, inst, ⟨false, 0, 0⟩, false, 0⟩ (f.read (IDU.rs1 inst)) (f.read (IDU.rs2 inst))

/-- The execution stage. -/
def executed : EXUOut :=
  EXU.bits (decoded f pc inst) (k.read (decoded f pc inst).csrAddr)

/-- The load and store unit, when it is done: it has read the word around the address. -/
def lsuDone : LSU := ⟨.waitReady, alignedWord mem (executed f k pc inst).lsuAddr, false⟩

/-- Write-back. -/
def written : Valid LSUOut := ⟨true, (lsuDone f k mem pc inst).bits (executed f k pc inst)⟩

/-- The beat the load and store unit has written. -/
def storedBeats : List StoredBeat :=
  if LSU.entryState (executed f k pc inst) = .wAddr then
    [((executed f k pc inst).lsuAddr,
      ((lsuDone f k mem pc inst).memOut ⟨true, executed f k pc inst⟩).w.bits)]
  else []

/-- What is left when an instruction has retired. -/
structure Outcome where
  dnpc : Word
  regFile : RegFile
  csrFile : CSRFile
  mem : Bytes

/-- The outcome of an instruction that goes through the pipeline by itself. -/
def outcome : Outcome where
  dnpc :=
    if WBU.redirectValid (written f k mem pc inst) then
      WBU.redirectTarget (written f k mem pc inst) k.mtvec k.mepc
    else EXU.correctTarget (decoded f pc inst) (k.read (decoded f pc inst).csrAddr)
  regFile := f.next (written f k mem pc inst).bits.rdAddr (written f k mem pc inst).bits.lsOut
    (WBU.rdWe (written f k mem pc inst))
  csrFile := k.next
    { enable := WBU.csrRdWe (written f k mem pc inst)
      addr := (written f k mem pc inst).bits.csrRdAddr
      data := (written f k mem pc inst).bits.csrRdData }
    (WBU.exception (written f k mem pc inst)) pc
  mem := Memory.bytes mem { stores := storedBeats f k mem pc inst }

end

/-! ## Agreement -/

/-- The registers `x0` to `x15` and the trap CSRs are those of the reference model, which
is in machine mode. -/
structure Agrees (s : CPU) (f : RegFile) (k : CSRFile) : Prop where
  gpr : ∀ rs : BitVec 5, rs.toNat < 16 → f.read rs = s.gpr rs
  zero : s.gpr 0 = 0
  csr : ∀ a ∈ CSRFile.trapCsrs, k.read a = s.csr a
  machine : s.privLevel = 0b11

/-- The outcome is the state of the reference model after the effect `e`. -/
structure Outcome.Is (out : Outcome) (s : CPU) (e : Effect) : Prop where
  exec : decodeExec s = some e
  goesOn : e.stop = none
  dnpc : out.dnpc = (s.apply e).pc
  mem : out.mem = (s.apply e).mem
  agrees : Agrees (s.apply e) out.regFile out.csrFile

variable {s : CPU} {f : RegFile} {k : CSRFile}

/-! ## The instructions of RV32I -/

/-- The operands of an instruction of RV32I. -/
theorem decoded_operand (h : Agrees s f k)
    (h1 : IDU.rs1Read s.inst = true → (IDU.rs1 s.inst).toNat < 16)
    (h2 : IDU.rs2Read s.inst = true → (IDU.rs2 s.inst).toNat < 16) :
    Operand s ⟨s.pc, s.inst, ⟨false, 0, 0⟩, false, 0⟩ (f.read (IDU.rs1 s.inst))
      (f.read (IDU.rs2 s.inst)) :=
  ⟨rfl, rfl, rfl, fun hr => h.gpr _ (h1 hr), fun hr => h.gpr _ (h2 hr)⟩

/-- The memory after a store of RV32I, or after none. -/
theorem bytes_storedBeats {mem : Bytes} {pc inst : Word}
    (hno : (executed f k pc inst).exception.valid = false)
    (halign : ∀ n, (decoded f pc inst).lsuOp.len = some n →
      (executed f k pc inst).lsuAddr.toNat % n = 0) :
    Memory.bytes mem { stores := storedBeats f k mem pc inst } =
      match (if (decoded f pc inst).lsuOp.stores then (decoded f pc inst).lsuOp.len.map fun n =>
        (⟨(executed f k pc inst).lsuAddr, n, (decoded f pc inst).rs2Data⟩ : Store) else none) with
      | some st => write mem st.addr st.len st.data
      | none => mem := by
  have hop : LSU.reqOp (executed f k pc inst) = (decoded f pc inst).lsuOp := by
    rw [LSU.reqOp, hno]
    rfl
  rw [storedBeats, ← hop]
  rw [← hop] at halign
  cases hs : (LSU.reqOp (executed f k pc inst)).stores with
  | false =>
      have hent : LSU.entryState (executed f k pc inst) ≠ .wAddr := by
        intro he
        rw [Core.Sim.stores_of_entryState, he] at hs
        exact absurd hs (by decide)
      rw [if_neg hent]
      rfl
  | true =>
      have hent : LSU.entryState (executed f k pc inst) = .wAddr := by
        rw [Core.Sim.stores_of_entryState] at hs
        exact of_decide_eq_true hs
      obtain ⟨n, hn⟩ : ∃ n, (LSU.reqOp (executed f k pc inst)).len = some n := by
        cases hq : LSU.reqOp (executed f k pc inst) <;> simp [LSUOp.stores, LSUOp.len, hq] at hs ⊢
      rw [if_pos hent, if_pos rfl, hn, Option.map_some]
      simp only
      have hfit := LSUOp.fits hn (halign n hn)
      rw [LSU.memOut_w (x := ⟨true, executed f k pc inst⟩) hs hn hfit, ← storeBeat_writes _ _ hfit]
      funext a
      exact Memory.bytes_cons mem { stores := [_] } rfl a

/-- An instruction that neither traps nor redirects nor writes a CSR. -/
structure Plain (f : RegFile) (k : CSRFile) (pc inst : Word) : Prop where
  noExcp : (executed f k pc inst).exception.valid = false
  noReturn : (executed f k pc inst).isTrapReturn = false
  noFence : (executed f k pc inst).isFenceI = false
  noCsr : (executed f k pc inst).csrRdWe = false

/-- An instruction of RV32I is plain. -/
theorem plain_of_rv32i {inst : Word} (hi : IsRv32i inst) (pc : Word) : Plain f k pc inst := by
  have hrow := rowAgrees hi
  have hfmt : (IDU.decode inst).fmt ≠ .E := hrow.fmt
  rcases hrow.kind with hk | hk <;>
    constructor <;>
      simp [executed, EXU.bits, EXU.excp, decoded, IDU.bits, IDU.excp, hk, hfmt]

/-- Its outcome is the effect of the reference. -/
theorem outcome_rv32i (h : Agrees s f k) (hi : IsRv32i s.inst)
    (h1 : IDU.rs1Read s.inst = true → (IDU.rs1 s.inst).toNat < 16)
    (h2 : IDU.rs2Read s.inst = true → (IDU.rs2 s.inst).toNat < 16)
    (hrd : (IDU.decode s.inst).we = true → (IDU.rd s.inst).toNat < 16)
    (halign : ∀ n, s.accessLen = some n → s.dataAddr.toNat % n = 0) :
    (outcome f k s.mem s.pc s.inst).Is s
      (coreEffect (decoded f s.pc s.inst) (k.read (decoded f s.pc s.inst).csrAddr) s.mem) := by
  have hop := decoded_operand h h1 h2
  have hplain : Plain f k s.pc s.inst := plain_of_rv32i hi s.pc
  have hexcp : (written f k s.mem s.pc s.inst).bits.exception.valid = false := by
    simp [written, LSU.bits, LSU.excp, hplain.noExcp, lsuDone]
  have hredirect : WBU.redirectValid (written f k s.mem s.pc s.inst) = false := by
    rw [WBU.redirectValid, hexcp]
    simp [written, LSU.bits, hplain.noReturn, hplain.noFence]
  refine ⟨decodeExec_eq hi hop halign, rfl, ?_, ?_, ⟨fun rs hrs => ?_, CPU.apply_gpr_zero,
    fun a ha => ?_, h.machine⟩⟩
  · rw [outcome, hredirect]
    rfl
  · have hlen : (decoded f s.pc s.inst).lsuOp.len = s.accessLen := (rowAgrees hi).len.symm
    refine bytes_storedBeats hplain.noExcp fun n hn => ?_
    rw [hlen] at hn
    have haddr : (executed f k s.pc s.inst).lsuAddr = s.dataAddr :=
      result_eq_dataAddr hi hop fun hnop => by
        rw [← hlen, decoded, IDU.bits, hnop] at hn
        cases hn
    rw [haddr]
    exact halign n hn
  · refine RegFile.next_agrees h.gpr h.zero ?_ (fun hwe => hrd ?_) hrs
    · rw [WBU.rdWe, hexcp]
      simp only [written, LSU.bits, Bool.true_and, Bool.not_false, Bool.and_true]
      rfl
    · rw [WBU.rdWe, hexcp] at hwe
      simpa [written, LSU.bits, executed, EXU.bits, decoded, IDU.bits] using hwe
  · have hwe : WBU.csrRdWe (written f k s.mem s.pc s.inst) = false := by
      simp [WBU.csrRdWe, written, LSU.bits, hplain.noCsr]
    rw [outcome, CSRFile.read_next ha (by simp [WBU.exception, hexcp]), hwe,
      if_neg fun hw => by cases hw.1]
    exact h.csr a ha

/-! ## The system instructions -/

/-- Two patterns disagree on a bit that both fix. -/
def Apart (x y : BitPat × Inst × InstType) : Prop :=
  x.1.value &&& y.1.mask ≠ y.1.value &&& x.1.mask

instance : DecidableRel Apart := fun _ _ => inferInstanceAs (Decidable (_ ≠ _))

instance : Std.Symm Apart := ⟨fun _ _ h => h.symm⟩

/-- No two patterns of NEMU match one word. -/
theorem instPats_apart : instPats.Pairwise Apart := by
  decide +kernel

/-- The reference model takes the only row that matches. -/
theorem decode_of_mem {row : BitPat × Inst × InstType} {inst : Word} (hrow : row ∈ instPats)
    (hm : row.1.matches inst = true) : Nemu.decode inst = row.2 := by
  unfold Nemu.decode
  cases hf : instPats.find? fun row => row.1.matches inst with
  | none => exact absurd hm (List.find?_eq_none.mp hf _ hrow)
  | some row' =>
      have hm' : row'.1.matches inst = true := by simpa using List.find?_some hf
      rw [BitPat.matches_iff] at hm hm'
      have heq : row = row' := by
        by_contra hne
        refine instPats_apart.forall hrow (List.mem_of_find?_eq_some hf) hne ?_
        rw [← hm, ← hm']
        simp only [BitVec.and_assoc, BitVec.and_comm row.1.mask]
      rw [heq]

/-- The number of a control register is the same in both decoders. -/
theorem csrAddr_eq (i : Word) : (BITS i 31 20).setWidth 12 = IDU.csrAddr i :=
  setWidth_BITS i 31 20 (by decide)

/-- The immediate of the instructions of control registers is the same in both decoders. -/
theorem immCSR_eq (i : Word) : immCSR i = IDU.immCsr i := BITS_eq i 19 15

/-- What the two decoders have for an instruction outside RV32I. -/
structure SystemRow (inst : Word) (entry : DecodeEntry) (i : Inst) (type : InstType) : Prop where
  core : IDU.decode inst = entry
  nemu : Nemu.decode inst = (i, type)

/-- A system instruction has its row in both decoders. -/
theorem systemRow {m : Mnemonic} {inst : Word} {i : Inst} {type : InstType} (he : m.Encodes inst)
    (hm : m ≠ .fence) (hrow : (InstDecodeTable.pat m, i, type) ∈ instPats) :
    SystemRow inst (InstDecodeTable.control m) i type :=
  ⟨InstDecodeTable.lookup_of_encodes he hm,
    decode_of_mem hrow ((InstDecodeTable.encodes_iff m inst).mp he)⟩

/-- An instruction without memory access stores nothing. -/
theorem storedBeats_nil {mem : Bytes} {pc inst : Word} (h : (IDU.decode inst).lsuOp = .nop) :
    storedBeats f k mem pc inst = [] := by
  have hop : LSU.reqOp (executed f k pc inst) = .nop := by
    unfold LSU.reqOp
    change (if _ then LSUOp.nop else (IDU.decode inst).lsuOp) = .nop
    rw [h, ite_self]
  rw [storedBeats, LSU.entryState, hop]
  exact if_neg (by decide)

/-- The row of a CSR instruction. -/
def csrEntry (oper2 : OperType) (op : CSROp) : DecodeEntry :=
  ⟨.C, .csr, oper2, true, .add, .nop, .nop, op, .csr⟩

/-- A CSR instruction writes what the CSR held to `rd`, and `v` to the CSR. -/
theorem outcome_csr (h : Agrees s f k) {oper2 : OperType} {op : CSROp} {v : Word}
    (hd : IDU.decode s.inst = csrEntry oper2 op)
    (hn : decodeExec s = some
      { dnpc := s.pc + 4
        rd := some (IDU.rd s.inst, s.csr (IDU.csrAddr s.inst))
        csr := [(IDU.csrAddr s.inst, v)] })
    (hv : (executed f k s.pc s.inst).csrRdData = v) (hrd : (IDU.rd s.inst).toNat < 16)
    (hcsr : IDU.csrAddr s.inst ∈ CSRFile.trapCsrs) :
    ∃ e, (outcome f k s.mem s.pc s.inst).Is s e := by
  -- the row fixes every control signal on the way to write-back
  have hexcp : (executed f k s.pc s.inst).exception.valid = false := by
    simp [executed, EXU.bits, EXU.excp, decoded, IDU.bits, IDU.excp, hd, csrEntry]
  have hexcp' : (written f k s.mem s.pc s.inst).bits.exception.valid = false := by
    simp [written, LSU.bits, LSU.excp, hexcp, lsuDone]
  have hredirect : WBU.redirectValid (written f k s.mem s.pc s.inst) = false := by
    rw [WBU.redirectValid, hexcp']
    simp [written, LSU.bits, executed, EXU.bits, decoded, IDU.bits, hd, csrEntry]
  have hrdWe : WBU.rdWe (written f k s.mem s.pc s.inst) = true := by
    rw [WBU.rdWe, hexcp']
    simp [written, LSU.bits, executed, EXU.bits, decoded, IDU.bits, hd, csrEntry]
  have hcsrWe : WBU.csrRdWe (written f k s.mem s.pc s.inst) = true := by
    rw [WBU.csrRdWe, hexcp']
    simp [written, LSU.bits, executed, EXU.bits, decoded, IDU.bits, hd, csrEntry]
  have hls : (written f k s.mem s.pc s.inst).bits.lsOut = s.csr (IDU.csrAddr s.inst) := by
    rw [← h.csr _ hcsr]
    simp [written, LSU.bits, LSU.lsOut, LSU.reqOp, executed, EXU.bits, EXU.exOut, decoded,
      IDU.bits, hd, csrEntry]
  refine ⟨_, hn, rfl, ?_, ?_, ⟨fun rs hrs => ?_, CPU.apply_gpr_zero, fun a ha => ?_, h.machine⟩⟩
  · rw [outcome, hredirect]
    simp [EXU.correctTarget, EXU.brTaken, decoded, IDU.bits, hd, csrEntry, CPU.apply]
  · rw [outcome, storedBeats_nil (by rw [hd]; rfl)]
    rfl
  · rw [outcome, hls, hrdWe]
    exact RegFile.next_agrees h.gpr h.zero rfl (fun _ => hrd) hrs
  · rw [outcome, CSRFile.read_next ha (by simp [WBU.exception, hexcp']), hcsrWe, h.csr a ha]
    have haddr : (written f k s.mem s.pc s.inst).bits.csrRdAddr = IDU.csrAddr s.inst := rfl
    have hdata : (written f k s.mem s.pc s.inst).bits.csrRdData = v := hv
    simp only [haddr, hdata, true_and, CPU.apply, List.foldl_cons, List.foldl_nil,
      Function.update_apply, eq_comm (a := a)]

/-- What a CSR instruction writes. -/
def csrFun : CSROp → Word → Word → Word
  | .nop, _, _ => 0
  | .rw, _, v => v
  | .rs, old, v => old ||| v
  | .rc, old, v => old &&& ~~~ v

/-- What is written into a control register is a function of what was in it. -/
theorem csrRdData_eq (x : IDUOut) (csr : Word) :
    EXU.csrRdData x csr = csrFun x.csrOp csr (EXU.oper2 x csr) := by
  unfold EXU.csrRdData
  cases x.csrOp <;> rfl

/-- The CSR instructions that take their operand from a register. -/
theorem outcome_csr_rs1 (h : Agrees s f k) {op : CSROp} {i : Inst}
    (hrow : SystemRow s.inst (csrEntry .rs1 op) i .CSR)
    (hbody : ∀ o : Operands, execBody s o i = some (csrOp s o fun old => csrFun op old (s.gpr o.rs1)))
    (hrs1 : (IDU.rs1 s.inst).toNat < 16) (hrd : (IDU.rd s.inst).toNat < 16)
    (hcsr : IDU.csrAddr s.inst ∈ CSRFile.trapCsrs) :
    ∃ e, (outcome f k s.mem s.pc s.inst).Is s e := by
  refine outcome_csr h (v := csrFun op (s.csr (IDU.csrAddr s.inst)) (s.gpr (IDU.rs1 s.inst)))
    hrow.core
    ?_ ?_ hrd hcsr
  · rw [decodeExec, hrow.nemu, hbody]
    simp only [decodeOperand, csrOp, rd_eq, rs1_eq, csrAddr_eq]
  · have hx : (decoded f s.pc s.inst).csrOp = op := by
      simp only [decoded, IDU.bits, hrow.core, csrEntry]
    rw [executed, EXU.bits, csrRdData_eq, hx, ← h.csr _ hcsr, ← h.gpr _ hrs1]
    simp only [EXU.oper2, EXU.oper, decoded, IDU.bits, hrow.core, csrEntry, IDU.forwardReg,
      List.find?_nil]

/-- The CSR instructions that take their operand from the `rs1` field. -/
theorem outcome_csr_imm (h : Agrees s f k) {op : CSROp} {i : Inst}
    (hrow : SystemRow s.inst (csrEntry .imm op) i .CSRImm)
    (hbody : ∀ o : Operands, execBody s o i = some (csrOp s o fun old => csrFun op old o.imm))
    (hrd : (IDU.rd s.inst).toNat < 16) (hcsr : IDU.csrAddr s.inst ∈ CSRFile.trapCsrs) :
    ∃ e, (outcome f k s.mem s.pc s.inst).Is s e := by
  refine outcome_csr h (v := csrFun op (s.csr (IDU.csrAddr s.inst)) (IDU.immCsr s.inst)) hrow.core
    ?_ ?_ hrd hcsr
  · rw [decodeExec, hrow.nemu, hbody]
    simp only [decodeOperand, csrOp, rd_eq, csrAddr_eq, immCSR_eq]
  · have hx : (decoded f s.pc s.inst).csrOp = op := by
      simp only [decoded, IDU.bits, hrow.core, csrEntry]
    rw [executed, EXU.bits, csrRdData_eq, hx, ← h.csr _ hcsr]
    simp only [EXU.oper2, EXU.oper, decoded, IDU.bits, IDU.imm, hrow.core, csrEntry]

/-- The row of `ecall`, `mret` and `fence.i`: only the redirection is left to do. -/
def redirectEntry (type : ExecType) : DecodeEntry :=
  ⟨.I, .zero, .zero, false, .add, .nop, .nop, .nop, type⟩

section

variable {type : ExecType} (hd : IDU.decode s.inst = redirectEntry type)
include hd

/-- Only `ecall` has an exception of its own. -/
theorem excp_of_redirect (hb : type ≠ .ebreak) :
    (written f k s.mem s.pc s.inst).bits.exception.valid = decide (type = .ecall) := by
  simp [written, LSU.bits, LSU.excp, lsuDone, executed, EXU.bits, EXU.excp, decoded, IDU.bits,
    IDU.excp, hd, redirectEntry, hb]

/-- The exception of `ecall`. -/
theorem excp_of_ecall (he : type = .ecall) :
    WBU.exception (written f k s.mem s.pc s.inst) =
      ⟨true, ExceptionCode.EnvironmentCallFromMMode, s.pc⟩ := by
  subst he
  simp [WBU.exception, written, LSU.bits, LSU.excp, lsuDone, executed, EXU.bits, EXU.excp,
    decoded, IDU.bits, IDU.excp, hd, redirectEntry]

/-- The core and the reference model agree after an instruction that only redirects, if they
do on the target and on the trap CSRs. -/
theorem outcome_redirect (h : Agrees s f k) {dnpc : Word} {csr : List (BitVec 12 × Word)}
    (htype : type = .ecall ∨ type = .mret ∨ type = .fenceI)
    (hn : decodeExec s = some { dnpc := dnpc, csr := csr })
    (hdnpc : WBU.redirectTarget (written f k s.mem s.pc s.inst) k.mtvec k.mepc = dnpc)
    (hcsr : ∀ a ∈ CSRFile.trapCsrs, (outcome f k s.mem s.pc s.inst).csrFile.read a =
      csr.foldl (fun g w => Function.update g w.1 w.2) s.csr a) :
    ∃ e, (outcome f k s.mem s.pc s.inst).Is s e := by
  have hredirect : WBU.redirectValid (written f k s.mem s.pc s.inst) = true := by
    have hb : type ≠ .ebreak := by rcases htype with rfl | rfl | rfl <;> decide
    rw [WBU.redirectValid, excp_of_redirect hd hb]
    rcases htype with rfl | rfl | rfl <;>
      simp [written, LSU.bits, executed, EXU.bits, decoded, IDU.bits, hd, redirectEntry]
  refine ⟨_, hn, rfl, ?_, ?_, ⟨fun rs hrs => ?_, CPU.apply_gpr_zero, hcsr, h.machine⟩⟩
  · rw [outcome, if_pos hredirect, hdnpc]
    rfl
  · rw [outcome, storedBeats_nil (by rw [hd]; rfl)]
    rfl
  · have hwe : WBU.rdWe (written f k s.mem s.pc s.inst) = false := by
      simp [WBU.rdWe, written, LSU.bits, executed, EXU.bits, decoded, IDU.bits, hd, redirectEntry]
    rw [outcome, hwe]
    exact RegFile.next_agrees h.gpr h.zero rfl (fun hw => by cases hw) hrs

/-- `mret` and `fence.i` leave the CSR file. -/
theorem csr_of_redirect (h : Agrees s f k) (htype : type = .mret ∨ type = .fenceI)
    {a : BitVec 12} (ha : a ∈ CSRFile.trapCsrs) :
    (outcome f k s.mem s.pc s.inst).csrFile.read a = s.csr a := by
  have hexcp : (WBU.exception (written f k s.mem s.pc s.inst)).valid = false := by
    rw [WBU.exception, excp_of_redirect hd (by rcases htype with rfl | rfl <;> decide)]
    rcases htype with rfl | rfl <;> rfl
  have hwe : WBU.csrRdWe (written f k s.mem s.pc s.inst) = false := by
    rcases htype with rfl | rfl <;>
      simp [WBU.csrRdWe, written, LSU.bits, executed, EXU.bits, decoded, IDU.bits, hd,
        redirectEntry]
  rw [outcome, CSRFile.read_next ha hexcp, hwe, if_neg fun hw => by cases hw.1]
  exact h.csr a ha

end

/-- The outcome of `ecall` is the effect of the reference. -/
theorem outcome_ecall (h : Agrees s f k)
    (hrow : SystemRow s.inst (redirectEntry .ecall) .ecall .N) :
    ∃ e, (outcome f k s.mem s.pc s.inst).Is s e := by
  have hn : decodeExec s = some { dnpc := s.csr CSR.mtvec, csr := raiseIntr 11 s.pc } := by
    rw [decodeExec, hrow.nemu, execBody, h.machine]
    rfl
  refine outcome_redirect hrow.core h (.inl rfl) hn ?_ fun a ha => ?_
  · rw [← h.csr _ (by decide)]
    simp [WBU.redirectTarget, written, LSU.bits, executed, EXU.bits, decoded, IDU.bits, hrow.core,
      redirectEntry]
    rfl
  · have hwe : WBU.csrRdWe (written f k s.mem s.pc s.inst) = false := by
      simp [WBU.csrRdWe, written, LSU.bits, executed, EXU.bits, decoded, IDU.bits, hrow.core,
        redirectEntry]
    have hk := h.csr a ha
    rw [outcome, excp_of_ecall hrow.core rfl, hwe]
    simp only [CSRFile.trapCsrs, List.mem_cons, List.not_mem_nil, or_false] at ha
    rcases ha with rfl | rfl | rfl | rfl | rfl
    · exact hk
    · exact hk
    all_goals rfl

/-- The outcome of `mret` is the effect of the reference. -/
theorem outcome_mret (h : Agrees s f k) (hrow : SystemRow s.inst (redirectEntry .mret) .mret .N) :
    ∃ e, (outcome f k s.mem s.pc s.inst).Is s e := by
  have hn : decodeExec s = some { dnpc := s.csr CSR.mepc, csr := [] } := by
    rw [decodeExec, hrow.nemu, execBody]
  refine outcome_redirect hrow.core h (.inr (.inl rfl)) hn ?_
    fun a ha => csr_of_redirect hrow.core h (.inl rfl) ha
  rw [← h.csr _ (by decide)]
  simp [WBU.redirectTarget, written, LSU.bits, executed, EXU.bits, decoded, IDU.bits, hrow.core,
    redirectEntry]
  rfl

/-- The outcome of `fence.i` is the effect of the reference. -/
theorem outcome_fenceI (h : Agrees s f k)
    (hrow : SystemRow s.inst (redirectEntry .fenceI) .fenceI .N) :
    ∃ e, (outcome f k s.mem s.pc s.inst).Is s e := by
  have hn : decodeExec s = some { dnpc := s.pc + 4, csr := [] } := by
    rw [decodeExec, hrow.nemu, execBody]
  refine outcome_redirect hrow.core h (.inr (.inr rfl)) hn ?_
    fun a ha => csr_of_redirect hrow.core h (.inr rfl) ha
  simp [WBU.redirectTarget, written, LSU.bits, executed, EXU.bits, decoded, IDU.bits, hrow.core,
    redirectEntry]

/-! ## Every instruction -/

/-- The accepted instructions but `ebreak` are those of RV32I and the system instructions. -/
theorem rv32i_or_system : ∀ m : Mnemonic, m ≠ .fence → m ≠ .ebreak →
    InstDecodeTable.pat m ∈ rv32i ∨
      m ∈ [.ecall, .mret, .fenceI, .csrrw, .csrrs, .csrrc, .csrrwi, .csrrsi, .csrrci] := by
  decide +kernel

/-- The decoder reads and writes the registers that the listing names. -/
theorem control_regs : ∀ m : Mnemonic, InstDecodeTable.pat m ∈ rv32i →
    ((InstDecodeTable.control m).we = true → m.usesRd = true) ∧
      ((InstDecodeTable.control m).fmt ∈ [.R, .I, .S, .B] → m.usesRs1 = true) ∧
      ((InstDecodeTable.control m).fmt ∈ [.R, .S, .B] → m.usesRs2 = true) ∧
      (InstDecodeTable.control m).fmt ≠ .C := by
  decide +kernel

/-- The reference model and the core agree on what stands in front of an instruction, and
the instruction is one they are meant to agree on. -/
structure Covered (s : CPU) (f : RegFile) (k : CSRFile) : Prop where
  agrees : Agrees s f k
  legal : ¬ IDU.RaisesIllegal s.inst
  noBreak : ¬ Mnemonic.ebreak.Encodes s.inst
  regs : ∀ m : Mnemonic, m.Encodes s.inst → m.RegsOk s.inst
  csr : (IDU.decode s.inst).execType = .csr → IDU.csrAddr s.inst ∈ CSRFile.trapCsrs
  aligned : ∀ n, s.accessLen = some n → s.dataAddr.toNat % n = 0

/-- An instruction of RV32I that is covered has the outcome of the reference. -/
theorem Covered.rv32i (h : Covered s f k) {m : Mnemonic} (he : m.Encodes s.inst)
    (hm : m ≠ .fence) (hrow : InstDecodeTable.pat m ∈ rv32i) :
    ∃ e, (outcome f k s.mem s.pc s.inst).Is s e := by
  obtain ⟨hwe, h1, h2, hC⟩ := control_regs m hrow
  have hd : IDU.decode s.inst = InstDecodeTable.control m :=
    InstDecodeTable.lookup_of_encodes he hm
  have hregs := h.regs m he
  rw [← hd] at hwe h1 h2 hC
  refine ⟨_, outcome_rv32i h.agrees ⟨_, hrow, (InstDecodeTable.encodes_iff m _).mp he⟩
    (fun hr => hregs.rs1 (h1 ?_)) (fun hr => hregs.rs2 (h2 ?_)) (fun hr => hregs.rd (hwe hr))
    h.aligned⟩
  · rw [IDU.rs1Read] at hr
    split at hr <;> simp_all
  · rw [IDU.rs2Read] at hr
    split at hr <;> simp_all

/-- An instruction with a control register and a register has the outcome of the reference. -/
theorem Covered.csr_rs1 (h : Covered s f k) {m : Mnemonic} (he : m.Encodes s.inst) {op : CSROp}
    {i : Inst} (hrow : SystemRow s.inst (csrEntry .rs1 op) i .CSR)
    (hbody : ∀ o : Operands, execBody s o i = some (csrOp s o fun old => csrFun op old (s.gpr o.rs1)))
    (hm : m.usesRd = true ∧ m.usesRs1 = true) :
    ∃ e, (outcome f k s.mem s.pc s.inst).Is s e :=
  outcome_csr_rs1 h.agrees hrow hbody ((h.regs m he).rs1 hm.2) ((h.regs m he).rd hm.1)
    (h.csr (by rw [hrow.core]; rfl))

/-- An instruction with a control register and an immediate has the outcome of the reference. -/
theorem Covered.csr_imm (h : Covered s f k) {m : Mnemonic} (he : m.Encodes s.inst) {op : CSROp}
    {i : Inst} (hrow : SystemRow s.inst (csrEntry .imm op) i .CSRImm)
    (hbody : ∀ o : Operands, execBody s o i = some (csrOp s o fun old => csrFun op old o.imm))
    (hm : m.usesRd = true) : ∃ e, (outcome f k s.mem s.pc s.inst).Is s e :=
  outcome_csr_imm h.agrees hrow hbody ((h.regs m he).rd hm) (h.csr (by rw [hrow.core]; rfl))

/-- **One instruction**: the core and the reference model do the same. -/
theorem outcome_agrees (h : Covered s f k) : ∃ e, (outcome f k s.mem s.pc s.inst).Is s e := by
  obtain ⟨m, he, hm⟩ : ∃ m : Mnemonic, m.Encodes s.inst ∧ m ≠ .fence := by
    by_contra hno
    refine h.legal ((IDU.raisesIllegal_iff _).mpr ((IDU.fmt_eq_E_iff _).mpr fun m he => ?_))
    by_contra hne
    exact hno ⟨m, he, hne⟩
  have hb : m ≠ .ebreak := fun hb => h.noBreak (hb ▸ he)
  rcases rv32i_or_system m hm hb with hrow | hsys
  · exact h.rv32i he hm hrow
  · simp only [List.mem_cons, List.not_mem_nil, or_false] at hsys
    rcases hsys with rfl | rfl | rfl | rfl | rfl | rfl | rfl | rfl | rfl
    · exact outcome_ecall h.agrees (systemRow he hm (by decide))
    · exact outcome_mret h.agrees (systemRow he hm (by decide))
    · exact outcome_fenceI h.agrees (systemRow he hm (by decide))
    · have hrow : SystemRow s.inst (csrEntry .rs1 .rw) .csrrw .CSR := systemRow he hm (by decide)
      exact h.csr_rs1 he hrow (fun _ => rfl) (by decide)
    · have hrow : SystemRow s.inst (csrEntry .rs1 .rs) .csrrs .CSR := systemRow he hm (by decide)
      exact h.csr_rs1 he hrow (fun _ => rfl) (by decide)
    · have hrow : SystemRow s.inst (csrEntry .rs1 .rc) .csrrc .CSR := systemRow he hm (by decide)
      exact h.csr_rs1 he hrow (fun _ => rfl) (by decide)
    · have hrow : SystemRow s.inst (csrEntry .imm .rw) .csrrwi .CSRImm := systemRow he hm (by decide)
      exact h.csr_imm he hrow (fun _ => rfl) (by decide)
    · have hrow : SystemRow s.inst (csrEntry .imm .rs) .csrrsi .CSRImm := systemRow he hm (by decide)
      exact h.csr_imm he hrow (fun _ => rfl) (by decide)
    · have hrow : SystemRow s.inst (csrEntry .imm .rc) .csrrci .CSRImm := systemRow he hm (by decide)
      exact h.csr_imm he hrow (fun _ => rfl) (by decide)

/-- The state in front of `csrrw x5, mepc, x6`. -/
def csrrwState : CPU where
  gpr := Function.update (fun _ => 0) 6 0x1234
  pc := 0x80000000
  csr := Function.update (Function.update (fun _ => 0) CSR.mstatus 0x1800) CSR.mepc 0x5678
  privLevel := 0b11
  mem := ofWords fun _ => 0x341312f3

/-- The agreement for `csrrw a0, mepc, t1`. -/
theorem csrrw_agrees : ∃ e, (outcome ⟨Function.update (fun _ => 0) 6 0x1234⟩
    { CSRFile.reset with mepc := 0x5678 } csrrwState.mem csrrwState.pc csrrwState.inst).Is
      csrrwState e := by
  have hi : csrrwState.inst = 0x341312f3 := wordAt_ofWords _ rfl
  have hcsr : ∀ a ∈ CSRFile.trapCsrs,
      ({ CSRFile.reset with mepc := 0x5678 } : CSRFile).read a = csrrwState.csr a := by
    intro a ha
    simp only [CSRFile.trapCsrs, List.mem_cons, List.not_mem_nil, or_false] at ha
    rcases ha with rfl | rfl | rfl | rfl | rfl <;> rfl
  refine outcome_agrees ⟨⟨by decide, rfl, hcsr, rfl⟩, ?_, ?_, fun m he => ?_, fun _ => ?_,
    fun n hn => ?_⟩
  · rw [IDU.raisesIllegal_iff, hi]
    decide
  · rw [hi]
    decide
  · rw [hi] at he ⊢
    have hm : m = .csrrw := Mnemonic.encodes_unique he (by decide)
    subst hm
    exact ⟨by decide, by decide, by decide⟩
  · rw [hi]
    decide
  · have hd : Nemu.decode (0x341312f3 : Word) = (.csrrw, .CSR) := by decide
    rw [CPU.accessLen, hi, hd] at hn
    cases hn

end OneInst

end Bailuwan
