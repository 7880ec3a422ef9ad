/-
# Forwarded operands

The decoder takes an operand from the nearest stage that is going to write its register.
What that stage offers is what write-back writes later: an instruction that offers a value
from the execution stage has no access to memory and gets to write-back in three cycles
with this value (`passes`), and one that offers a value from the load and store unit is
about to leave it.  `forwarding` says so for every run.
-/
import Bailuwan.CsrOrder
import Bailuwan.DecoderAcceptance
import Bailuwan.Issue

namespace Bailuwan

open Synchronous AXI4

/-! ## Registers that are read -/

/-- The registers that an instruction reads, with the operands it has been given.  Those that it
uses in the ISA are among them (`reads_of_uses`). -/
def IDUOut.operands (x : IDUOut) : List (BitVec 5 × Word) :=
  (if IDU.rs1Read x.inst then [(IDU.rs1 x.inst, x.rs1Data)] else []) ++
    (if IDU.rs2Read x.inst then [(IDU.rs2 x.inst, x.rs2Data)] else [])

/-- What an instruction of the ISA uses is read. -/
theorem reads_of_uses {m : Rv32e.Mnemonic} {inst : Word} (h : m.Encodes inst) :
    (m.usesRs1 = true → IDU.rs1Read inst = true) ∧
      (m.usesRs2 = true → IDU.rs2Read inst = true) := by
  by_cases hm : m = .fence
  · subst hm
    exact ⟨fun hu => absurd hu (by decide), fun hu => absurd hu (by decide)⟩
  · simp only [IDU.rs1Read, IDU.rs2Read, IDU.decode, InstDecodeTable.lookup_of_encodes h hm]
    clear h
    revert hm
    -- what is left is a statement about one row of the table
    cases m <;> decide

namespace Core

/-! ## The statement -/

/-- The youngest instruction behind the decoder that is going to write a register. -/
def writer (c : Core) (g : Trace) (rs : BitVec 5) : Option ℕ :=
  if c.exuIn.valid = true ∧ c.exuIn.bits.rdWe = true ∧ c.exuIn.bits.rdAddr = rs then some g.exu
  else if c.lsuIn.valid = true ∧ c.lsuIn.bits.rdWe = true ∧ c.lsuIn.bits.rdAddr = rs then
    some g.lsu
  else if c.wbuIn.valid = true ∧ c.wbuIn.bits.rdWe = true ∧ c.wbuIn.bits.rdAddr = rs then
    some g.wbu
  else none

/-- The instructions behind the decoder, oldest first. -/
def ahead (c : Core) (g : Trace) : List ℕ :=
  name c.wbuIn g.wbu ++ (name c.lsuIn g.lsu ++ name c.exuIn g.exu)

variable (r : machine.Run)

/-- Instruction `e` is in write-back in `u`. -/
def InWriteBack (e u : ℕ) : Prop := (r.st u).wbuIn.valid = true ∧ (trace r u).wbu = e

/-- The value `v` is what register `rs` is going to hold for the instruction handed over in
`t`: what the youngest writer ahead of it writes when it gets to write-back, which it does
if nothing ahead starts the fetch over (by a trap, `mret` or `fence.i`), and what the
register holds already if there is no writer. -/
structure Forwards (t : ℕ) (rs : BitVec 5) (v : Word) : Prop where
  held : writer (r.st t) (trace r t) rs = none → v = (r.st t).regFile.read rs
  written : ∀ e, writer (r.st t) (trace r t) rs = some e →
    ∀ u, InWriteBack r e u → WBU.rdWe (r.st u).wbuIn = true →
      (r.st u).wbuIn.bits.rdAddr = rs ∧ (r.st u).wbuIn.bits.lsOut = v ∧
        (r.st (u + 1)).regFile.read rs = v
  arrives : ∀ e, writer (r.st t) (trace r t) rs = some e →
    (∀ n ∈ ahead (r.st t) (trace r t), ∀ u, InWriteBack r n u → (r.st u).wbuFlush = false) →
    ∃ u, InWriteBack r e u ∧ WBU.rdWe (r.st u).wbuIn = true

/-- **The statement about forwarding.** -/
def Forwarding : Prop :=
  ∀ t x, (r.st t).iduFire = true → (r.st t).iduOut = some x → ∀ p ∈ x.operands,
    1 ≤ p.1.toNat → p.1.toNat ≤ 15 → Forwards r t p.1 p.2

variable {r} {t : ℕ}

/-! ## The way of a writer -/

/-- A register that is written holds what is written. -/
theorem read_after_write {u : ℕ} {rs : BitVec 5} (hne : rs ≠ 0)
    (hw : WBU.rdWe (r.st u).wbuIn = true) (hrd : (r.st u).wbuIn.bits.rdAddr = rs) :
    (r.st (u + 1)).regFile.read rs = (r.st u).wbuIn.bits.lsOut := by
  have hupd : ((r.st u).next (r.inp u)).regFile.regs =
      Function.update (r.st u).regFile.regs (RegFile.idx rs) (r.st u).wbuIn.bits.lsOut := by
    simp only [next, RegFile.next, hw, hrd, Bool.true_and]
    exact if_pos (decide_eq_true hne)
  rw [st_succ, RegFile.read, hupd, Function.update_self]

/-- The value of an instruction `e` on its way to register `rs`. -/
structure Brings (r : machine.Run) (t : ℕ) (rs : BitVec 5) (e : ℕ) (v : Word) : Prop where
  value : ∀ u, InWriteBack r e u → WBU.rdWe (r.st u).wbuIn = true →
    (r.st u).wbuIn.bits.rdAddr = rs ∧ (r.st u).wbuIn.bits.lsOut = v
  reaches : (∀ n ∈ ahead (r.st t) (trace r t), ∀ u, InWriteBack r n u → (r.st u).wbuFlush = false) →
    ∃ u, InWriteBack r e u ∧ (r.st u).wbuIn.bits.rdWe = true

/-- An instruction that does not start the fetch over has no exception. -/
theorem rdWe_of_not_flush {u : ℕ} (hv : (r.st u).wbuIn.valid = true)
    (hwe : (r.st u).wbuIn.bits.rdWe = true) (hf : (r.st u).wbuFlush = false) :
    WBU.rdWe (r.st u).wbuIn = true := by
  simp only [wbuFlush, WBU.redirectValid, hv, Bool.true_and, Bool.or_eq_false_iff] at hf
  simp [WBU.rdWe, hv, hwe, hf.1.1]

/-- An instruction is in the write back stage once. -/
theorem inWriteBack_unique {e u v : ℕ} (hu : InWriteBack r e u) (hv : InWriteBack r e v) : u = v :=
  wbu_unique (r := r) (mem_name.mpr ⟨hu.1, hu.2.symm⟩) (mem_name.mpr ⟨hv.1, hv.2.symm⟩)

/-- From write-back itself. -/
theorem brings_of_wbu (hv : (r.st t).wbuIn.valid = true)
    (hwe : (r.st t).wbuIn.bits.rdWe = true) :
    Brings r t (r.st t).wbuIn.bits.rdAddr (trace r t).wbu (r.st t).wbuIn.bits.lsOut := by
  have hnow : InWriteBack r (trace r t).wbu t := ⟨hv, rfl⟩
  constructor
  · intro u hu _
    rw [inWriteBack_unique hu hnow]
    exact ⟨rfl, rfl⟩
  · intro _
    exact ⟨t, hnow, hwe⟩

/-- From the load and store unit, as it hands its instruction over. -/
theorem brings_of_lsu (hs : (r.st t).lsu.state = .waitReady)
    (hwe : (r.st t).lsuIn.bits.rdWe = true) :
    Brings r t (r.st t).lsuIn.bits.rdAddr (trace r t).lsu
      ((r.st t).lsu.lsOut (r.st t).lsuIn.bits) := by
  have hbits : (r.st (t + 1)).wbuIn.bits = (r.st t).lsu.bits (r.st t).lsuIn.bits := by
    rw [st_succ, next_wbuIn_bits hs]
  have hnext : InWriteBack r (trace r t).lsu (t + 1) := by
    constructor
    · rw [st_succ, next_wbuIn_valid, (pipelineInv r t).wbuFlush_of_busy (by simp [hs]), hs]
      rfl
    · rw [trace_succ]
      simp [Trace.next, LSU.outValid_eq, hs]
  constructor
  · intro u hu _
    rw [inWriteBack_unique hu hnext, hbits]
    exact ⟨rfl, rfl⟩
  · intro _
    exact ⟨t + 1, hnext, by rw [hbits]; exact hwe⟩

/-- What is flushed away is behind an instruction that starts the fetch over. -/
theorem not_flushed_of_ahead
    (h : ∀ n ∈ ahead (r.st t) (trace r t), ∀ u, InWriteBack r n u → (r.st u).wbuFlush = false) :
    (r.st t).wbuFlush = false ∧ (r.st (t + 1)).wbuFlush = false := by
  constructor
  · by_contra hf
    rw [Bool.not_eq_false] at hf
    have hv : (r.st t).wbuIn.valid = true := (Bool.and_eq_true_iff.mp hf).1
    rw [h _ (List.mem_append_left _ (by simp [hv])) t ⟨hv, rfl⟩] at hf
    exact absurd hf (by decide)
  · by_contra hf
    rw [Bool.not_eq_false] at hf
    have hv : (r.st (t + 1)).wbuIn.valid = true := (Bool.and_eq_true_iff.mp hf).1
    -- what is in write-back then leaves the load and store unit now
    have hs : (r.st t).lsu.state = .waitReady := by
      rw [st_succ, next_wbuIn_valid, Bool.and_eq_true, decide_eq_true_eq] at hv
      exact hv.2
    have hname : (trace r (t + 1)).wbu = (trace r t).lsu := by
      rw [trace_succ]
      simp [Trace.next, LSU.outValid_eq, hs]
    have hin : (trace r t).lsu ∈ ahead (r.st t) (trace r t) :=
      List.mem_append_right _ (List.mem_append_left _ (by
        simp [(pipelineInv r t).held (by simp [hs])]))
    rw [h _ hin (t + 1) ⟨hv, hname⟩] at hf
    exact absurd hf (by decide)

/-- From the execution stage, as it hands its instruction over. -/
theorem brings_of_exu (hfire : (r.st t).exuFire = true)
    (hop : LSU.reqOp (EXU.bits (r.st t).exuIn.bits (r.st t).csrRsData) = .nop)
    (hwe : (r.st t).exuIn.bits.rdWe = true) :
    Brings r t (r.st t).exuIn.bits.rdAddr (trace r t).exu
      (EXU.exOut (r.st t).exuIn.bits (r.st t).csrRsData) := by
  constructor
  · intro u hu _
    obtain ⟨hf, hf'⟩ := not_flushed_of_wbu hfire hu.1 hu.2
    obtain ⟨-, hvalid, hname, v, hbits⟩ := passes hfire hop hf hf'
    rw [inWriteBack_unique hu ⟨hvalid, hname⟩, hbits]
    exact ⟨rfl, lsOut_of_nop hop⟩
  · intro hahead
    obtain ⟨hf, hf'⟩ := not_flushed_of_ahead hahead
    obtain ⟨-, hvalid, hname, v, hbits⟩ := passes hfire hop hf hf'
    exact ⟨t + 3, ⟨hvalid, hname⟩, by rw [hbits]; exact hwe⟩

/-! ## Forwarding -/

/-- An instruction that offers its value from the execution stage accesses no memory. -/
theorem nop_of_dataValid (hv : (r.st t).exuIn.valid = true)
    (hd : (EXU.hazard (r.st t).exuIn.bits (r.st t).csrRsData true).dataValid = true) :
    LSU.reqOp (EXU.bits (r.st t).exuIn.bits (r.st t).csrRsData) = .nop := by
  obtain ⟨hz, o, d1, d2, hdec⟩ := decoded r t hv
  have hrow := InstDecodeTable.lookup_of_rows
    (P := fun e => e.execType = .alu ∨ e.execType = .csr → e.lsuOp = .nop) (by decide) (by decide)
    o.inst
  simp only [EXU.hazard, Bool.or_eq_true, decide_eq_true_eq] at hd
  have hlsu : (EXU.bits (r.st t).exuIn.bits (r.st t).csrRsData).lsuOp = .nop := by
    rw [hdec] at hd ⊢
    exact hrow hd
  simp [LSU.reqOp, hlsu]

/-- A load and store unit that holds an instruction while the decoder hands one over is
done with it. -/
theorem waitReady_of_iduFire (hfire : (r.st t).iduFire = true)
    (hv : (r.st t).lsuIn.valid = true) : (r.st t).lsu.state = .waitReady := by
  have hr : (r.st t).lsuInReady = true := (Bool.and_eq_true_iff.mp hfire).2
  simpa [lsuInReady, LSU.inReady, hv] using hr

/-- A writer is ahead in the pipeline. -/
theorem writer_mem_ahead {c : Core} {g : Trace} {rs : BitVec 5} {e : ℕ}
    (he : writer c g rs = some e) : e ∈ ahead c g := by
  unfold writer at he
  simp only [ahead, List.mem_append, mem_name]
  split_ifs at he with h1 h2 h3
  · exact .inr (.inr ⟨h1.1, (Option.some_inj.mp he).symm⟩)
  · exact .inr (.inl ⟨h2.1, (Option.some_inj.mp he).symm⟩)
  · exact .inl ⟨h3.1, (Option.some_inj.mp he).symm⟩

/-- The hazard of the execution unit is its destination. -/
theorem exu_hazard_iff {x : IDUOut} {k : Word} {v : Bool} {rs : BitVec 5} :
    ((EXU.hazard x k v).valid = true ∧ (EXU.hazard x k v).rd = rs) ↔
      v = true ∧ x.rdWe = true ∧ x.rdAddr = rs := by
  simp [EXU.hazard, and_assoc]

/-- The hazard of the load and store unit is its destination. -/
theorem lsu_hazard_iff {u : LSU} {x : Valid EXUOut} {rs : BitVec 5} :
    ((u.hazard x).valid = true ∧ (u.hazard x).rd = rs) ↔
      x.valid = true ∧ x.bits.rdWe = true ∧ x.bits.rdAddr = rs := by
  simp [LSU.hazard, and_assoc]

/-- The hazard of the write back stage is its destination, unless it has an exception. -/
theorem wbu_hazard_iff {x : Valid LSUOut} {rs : BitVec 5} :
    ((WBU.hazard x).valid = true ∧ (WBU.hazard x).rd = rs) ↔
      (x.valid = true ∧ x.bits.rdWe = true ∧ x.bits.rdAddr = rs) ∧
        x.bits.exception.valid = false := by
  simp only [WBU.hazard, Bool.and_eq_true, Bool.not_eq_true']
  tauto

/-- **The nearest writer** brings what the decoder takes; without one the decoder takes what
the register file holds. -/
theorem brings {rs : BitVec 5} (hfire : (r.st t).iduFire = true) (hne : rs ≠ 0)
    (hstall : IDU.needStall (r.st t).hazards rs true = false) :
    match writer (r.st t) (trace r t) rs with
    | some e => Brings r t rs e
        (IDU.forwardReg (r.st t).hazards rs ((r.st t).regFile.read rs))
    | none => IDU.forwardReg (r.st t).hazards rs ((r.st t).regFile.read rs) =
        (r.st t).regFile.read rs := by
  have hready : (r.st t).lsuInReady = true := (Bool.and_eq_true_iff.mp hfire).2
  have hwait := not_waits_of_not_needStall hstall hne
  have hexu := hwait (EXU.hazard (r.st t).exuIn.bits (r.st t).csrRsData (r.st t).exuIn.valid)
    (by simp [hazards])
  have hlsu := hwait ((r.st t).lsu.hazard (r.st t).lsuIn) (by simp [hazards])
  have hwbu := hwait (WBU.hazard (r.st t).wbuIn) (by simp [hazards])
  rw [hazards, forwardReg_cons_eq hne hexu, forwardReg_cons_eq hne hlsu,
    forwardReg_cons_eq hne hwbu]
  simp only [exu_hazard_iff, lsu_hazard_iff, wbu_hazard_iff]
  unfold writer
  by_cases h1 : (r.st t).exuIn.valid = true ∧ (r.st t).exuIn.bits.rdWe = true ∧
      (r.st t).exuIn.bits.rdAddr = rs
  · rw [if_pos h1, if_pos h1]
    obtain ⟨hv, hwe, rfl⟩ := h1
    have hd : (EXU.hazard (r.st t).exuIn.bits (r.st t).csrRsData true).dataValid = true := by
      by_contra hd
      rw [hv] at hexu
      exact hexu ⟨by simp [EXU.hazard, hwe], rfl, by simpa using hd⟩
    exact brings_of_exu (by simp [exuFire, hv, hready]) (nop_of_dataValid hv hd) hwe
  rw [if_neg h1, if_neg h1]
  by_cases h2 : (r.st t).lsuIn.valid = true ∧ (r.st t).lsuIn.bits.rdWe = true ∧
      (r.st t).lsuIn.bits.rdAddr = rs
  · rw [if_pos h2, if_pos h2]
    obtain ⟨hv, hwe, rfl⟩ := h2
    exact brings_of_lsu (waitReady_of_iduFire hfire hv) hwe
  rw [if_neg h2, if_neg h2]
  by_cases h3 : (r.st t).wbuIn.valid = true ∧ (r.st t).wbuIn.bits.rdWe = true ∧
      (r.st t).wbuIn.bits.rdAddr = rs
  · rw [if_pos h3]
    obtain ⟨hv, hwe, rfl⟩ := h3
    have hb := brings_of_wbu hv hwe
    cases hx : (r.st t).wbuIn.bits.exception.valid with
    | false =>
        rw [if_pos ⟨⟨hv, hwe, rfl⟩, rfl⟩]
        exact hb
    | true =>
        -- it traps, and writes nothing
        refine ⟨fun u hu hw => ?_, hb.reaches⟩
        rw [inWriteBack_unique hu ⟨hv, rfl⟩] at hw
        simp [WBU.rdWe, hx] at hw
  · rw [if_neg h3, if_neg (fun hz => h3 hz.1)]
    rfl

/-- **Forwarding** of a register that the decoder does not wait for. -/
theorem forwards {rs : BitVec 5} (hfire : (r.st t).iduFire = true) (hne : rs ≠ 0)
    (hstall : IDU.needStall (r.st t).hazards rs true = false) :
    Forwards r t rs (IDU.forwardReg (r.st t).hazards rs ((r.st t).regFile.read rs)) := by
  have hb := brings hfire hne hstall
  constructor
  · intro hnone
    rwa [hnone] at hb
  · intro e he u hu hw
    rw [he] at hb
    obtain ⟨hrd, hval⟩ := hb.value u hu hw
    exact ⟨hrd, hval, by rw [read_after_write hne hw hrd, hval]⟩
  · intro e he hahead
    rw [he] at hb
    obtain ⟨u, hu, hwe⟩ := hb.reaches hahead
    exact ⟨u, hu, rdWe_of_not_flush hu.1 hwe (hahead e (writer_mem_ahead he) u hu)⟩

/-- **Forwarding**: in every run the decoder hands over, for each register an instruction
reads, the value that the instructions ahead of it leave there. -/
theorem forwarding (r : machine.Run) : Forwarding r := by
  intro t x hfire hout p hp hlow _
  have hgo : ((r.st t).iduIn.valid && !(r.st t).hazardStall) = true :=
    (Bool.and_eq_true_iff.mp hfire).1
  obtain ⟨hv, hstall⟩ := Bool.and_eq_true_iff.mp hgo
  rw [iduOut, hgo, if_pos rfl, Option.some_inj] at hout
  simp only [hazardStall, IDU.hazardStall, hv, Bool.true_and, Bool.not_eq_true',
    Bool.or_eq_false_iff] at hstall
  have hne : p.1 ≠ 0 := by
    rintro h0
    rw [h0] at hlow
    exact absurd hlow (by decide)
  subst hout
  simp only [IDUOut.operands, List.mem_append] at hp
  rcases hp with hp | hp
  · split_ifs at hp with hread
    · obtain rfl := List.mem_singleton.mp hp
      refine forwards hfire hne ?_
      have h1 := hstall.1.1
      rwa [show IDU.rs1Read (r.st t).iduIn.bits.inst = true from hread] at h1
    · cases hp
  · split_ifs at hp with hread
    · obtain rfl := List.mem_singleton.mp hp
      refine forwards hfire hne ?_
      have h2 := hstall.1.2
      rwa [show IDU.rs2Read (r.st t).iduIn.bits.inst = true from hread] at h2
    · cases hp

end Core

end Bailuwan
