/-
# Instructions at the stage boundaries

What the registers between the stages hold for the next instruction of the reference
model (`Issues`), what the stages make of it, and how a younger instruction gets its
operands: each stage announces the register it is going to write (`Announces`), and the
forwarded value is the one all announced instructions leave (`forwardReg_cons`).
-/
import Bailuwan.InstAgree
import Bailuwan.WBU

namespace Bailuwan

open Nemu

/-! ## Supported instructions -/

namespace Nemu

/-- The next instruction is one of RV32I with registers `x0` to `x15`; it and the data
it accesses are naturally aligned, at addresses of the memory. -/
structure CPU.Supported (routed : Word → Prop) (s : CPU) : Prop where
  inst : IsRv32i s.inst
  rs1 : (decode s.inst).2.readsRs1 = true → (BITS s.inst 19 15).toNat < 16
  rs2 : (decode s.inst).2.readsRs2 = true → (BITS s.inst 24 20).toNat < 16
  rd : (decode s.inst).2.writesRd = true → (BITS s.inst 11 7).toNat < 16
  pcAligned : s.pc.toNat % 4 = 0
  pcRouted : routed s.pc
  dataAligned : ∀ n, s.accessLen = some n → s.dataAddr.toNat % n = 0
  dataRouted : ∀ n, s.accessLen = some n → routed s.dataAddr

variable {s : CPU} {e : Effect}

/-- Register 0 is never written. -/
@[simp] theorem CPU.apply_gpr_zero : (s.apply e).gpr 0 = 0 := by simp [CPU.apply]

/-- An instruction without destination changes no register. -/
theorem CPU.apply_gpr_of_none {rs : BitVec 5} (hne : rs ≠ 0) (h : e.rd = none) :
    (s.apply e).gpr rs = s.gpr rs := by
  simp only [CPU.apply, h, Function.update_of_ne hne]

/-- An instruction changes its destination. -/
theorem CPU.apply_gpr_of_some {rs rd : BitVec 5} {v : Word} (hne : rs ≠ 0)
    (h : e.rd = some (rd, v)) :
    (s.apply e).gpr rs = if rs = rd then v else s.gpr rs := by
  simp only [CPU.apply, h, Function.update_of_ne hne]
  split_ifs with heq
  · rw [heq, Function.update_self]
  · rw [Function.update_of_ne heq]

end Nemu

/-! ## What the shared rows have in common -/

/-- The formats and types of the shared rows use the same register fields, the accesses
have the same lengths, and no row is for an exception or a CSR. -/
structure RowAgrees (e : DecodeEntry) (i : Inst) (t : InstType) : Prop where
  len : i.len = e.lsuOp.len
  kind : e.execType = .alu ∨ e.execType = .lsu
  lsu : e.execType = .lsu → e.lsuOp ≠ .nop
  alu : e.execType = .alu → e.lsuOp = .nop
  fmt : e.fmt ≠ .E
  rs1 : t.readsRs1 = true ∨ e.fmt = .U ∨ e.fmt = .J
  rs2 : t.readsRs2 = true ∨ e.fmt = .I ∨ e.fmt = .U ∨ e.fmt = .J
  rd : e.we = true → t.writesRd = true

instance (e : DecodeEntry) (i : Inst) (t : InstType) : Decidable (RowAgrees e i t) :=
  decidable_of_iff (i.len = e.lsuOp.len ∧ (e.execType = .alu ∨ e.execType = .lsu) ∧
      (e.execType = .lsu → e.lsuOp ≠ .nop) ∧ (e.execType = .alu → e.lsuOp = .nop) ∧ e.fmt ≠ .E ∧
      (t.readsRs1 = true ∨ e.fmt = .U ∨ e.fmt = .J) ∧
      (t.readsRs2 = true ∨ e.fmt = .I ∨ e.fmt = .U ∨ e.fmt = .J) ∧
      (e.we = true → t.writesRd = true))
    ⟨fun ⟨h1, h2, h3, h4, h5, h6, h7, h8⟩ => ⟨h1, h2, h3, h4, h5, h6, h7, h8⟩,
      fun ⟨h1, h2, h3, h4, h5, h6, h7, h8⟩ => ⟨h1, h2, h3, h4, h5, h6, h7, h8⟩⟩

/-- A word of RV32I has a row in both decoders, and the rows agree. -/
theorem rowAgrees {inst : Word} (h : IsRv32i inst) :
    RowAgrees (IDU.decode inst) (decode inst).1 (decode inst).2 :=
  decode_of_rows (P := RowAgrees) (by decide) h

/-- The registers that the core reads and writes are `x0` to `x15`. -/
theorem rs1_lt {routed : Word → Prop} {s : CPU} (h : s.Supported routed)
    (hr : IDU.rs1Read s.inst = true) : (IDU.rs1 s.inst).toNat < 16 := by
  have hrow := (rowAgrees h.inst).rs1
  rw [← rs1_eq, BitVec.toNat_setWidth]
  refine lt_of_le_of_lt (Nat.mod_le _ _) (h.rs1 ?_)
  rcases hrow with hrow | hrow | hrow
  · exact hrow
  all_goals simp [IDU.rs1Read, hrow] at hr

/-- The second source of a supported instruction is one of the 16 registers. -/
theorem rs2_lt {routed : Word → Prop} {s : CPU} (h : s.Supported routed)
    (hr : IDU.rs2Read s.inst = true) : (IDU.rs2 s.inst).toNat < 16 := by
  have hrow := (rowAgrees h.inst).rs2
  rw [← rs2_eq, BitVec.toNat_setWidth]
  refine lt_of_le_of_lt (Nat.mod_le _ _) (h.rs2 ?_)
  rcases hrow with hrow | hrow | hrow | hrow
  · exact hrow
  all_goals simp [IDU.rs2Read, hrow] at hr

/-- The destination of a supported instruction is one of the 16 registers. -/
theorem rd_lt {routed : Word → Prop} {s : CPU} (h : s.Supported routed)
    (hr : (IDU.decode s.inst).we = true) : (IDU.rd s.inst).toNat < 16 := by
  rw [← rd_eq, BitVec.toNat_setWidth]
  exact lt_of_le_of_lt (Nat.mod_le _ _) (h.rd ((rowAgrees h.inst).rd hr))

/-! ## Instructions in front of a stage -/

/-- The execution stage holds the next instruction of `s` with its operands. -/
def Issues (s : CPU) (x : IDUOut) : Prop :=
  ∃ o d1 d2, Operand s o d1 d2 ∧ x = IDU.bits [] o d1 d2

/-- The load and store unit holds the next instruction of `s` with its result. -/
def Executes (s : CPU) (b : EXUOut) : Prop := ∃ x csr, Issues s x ∧ b = EXU.bits x csr

/-- Write-back holds the next instruction of `s` with the value it writes. -/
structure Retires (s : CPU) (b : LSUOut) : Prop where
  pc : b.pc = s.pc
  effect : ∃ e, decodeExec s = some e ∧
    e.rd = if b.rdWe then some (b.rdAddr, b.lsOut) else none
  noExcp : b.exception.valid = false
  noReturn : b.isTrapReturn = false
  noFence : b.isFenceI = false

section

variable {routed : Word → Prop} {s : CPU} {x : IDUOut}

/-- The next instruction of `s`, decoded, with its operands. -/
def Nemu.CPU.issued (s : CPU) : IDUOut :=
  IDU.bits [] ⟨s.pc, s.inst, ⟨false, 0, 0⟩, false, 0⟩ (s.gpr (IDU.rs1 s.inst))
    (s.gpr (IDU.rs2 s.inst))

/-- What is issued for a state is an instruction of it. -/
theorem issues_issued (s : CPU) : Issues s s.issued :=
  ⟨_, _, _, ⟨rfl, rfl, rfl, fun _ => rfl, fun _ => rfl⟩, rfl⟩

theorem Issues.pc (h : Issues s x) : x.pc = s.pc := by
  obtain ⟨o, d1, d2, ho, rfl⟩ := h
  exact ho.pc

theorem Issues.brOp (h : Issues s x) : x.brOp = (IDU.decode s.inst).brOp := by
  obtain ⟨o, d1, d2, ho, rfl⟩ := h
  simp only [IDU.bits, ho.inst]

/-- An instruction that is issued has the effect of the reference. -/
theorem Issues.effect (h : Issues s x) (hs : s.Supported routed) (csr : Word) :
    decodeExec s = some (coreEffect x csr s.mem) := by
  obtain ⟨o, d1, d2, ho, rfl⟩ := h
  exact decodeExec_eq hs.inst ho hs.dataAligned

/-- The row of the instruction, as the execution stage sees it. -/
structure PlainRow (s : CPU) (x : IDUOut) : Prop where
  len : x.lsuOp.len = s.accessLen
  kind : x.execType = .alu ∧ x.lsuOp = .nop ∨ x.execType = .lsu ∧ x.lsuOp ≠ .nop
  noExcp : x.exception.valid = false
  rd : x.rdWe = true → x.rdAddr.toNat < 16

/-- It has a plain row. -/
theorem Issues.row (h : Issues s x) (hs : s.Supported routed) : PlainRow s x := by
  obtain ⟨o, d1, d2, ho, rfl⟩ := h
  have hrow := rowAgrees hs.inst
  have hrd := rd_lt hs
  refine ⟨?_, ?_, ?_, fun hwe => ?_⟩
  · rw [CPU.accessLen, hrow.len]
    simp only [IDU.bits, ho.inst]
  · simp only [IDU.bits, ho.inst]
    rcases hrow.kind with hk | hk
    · exact .inl ⟨hk, hrow.alu hk⟩
    · exact .inr ⟨hk, hrow.lsu hk⟩
  · simp [IDU.bits, IDU.excp, ho.inst, ho.noExcp, hrow.fmt]
  · simp only [IDU.bits, ho.inst] at hwe ⊢
    exact hrd hwe

/-- The address of an access. -/
theorem Issues.result (h : Issues s x) (hs : s.Supported routed) (hop : x.lsuOp ≠ .nop)
    (csr : Word) : EXU.result x csr = s.dataAddr := by
  obtain ⟨o, d1, d2, ho, rfl⟩ := h
  simp only [IDU.bits, ho.inst] at hop
  exact result_eq_dataAddr hs.inst ho hop

/-! ### What the execution stage hands over -/

variable {b : EXUOut} {csr : Word}

/-- No instruction has an exception or is one that redirects in write-back. -/
structure Plain (b : EXUOut) : Prop where
  noExcp : b.exception.valid = false
  noReturn : b.isTrapReturn = false
  noFence : b.isFenceI = false

/-- A supported instruction leaves the execution unit without an exception. -/
theorem Issues.plain (h : Issues s x) (hs : s.Supported routed) : Plain (EXU.bits x csr) := by
  have hrow := h.row hs
  rcases hrow.kind with hk | hk <;>
    exact ⟨by simp [EXU.bits, EXU.excp, hrow.noExcp, hk.1], by simp [EXU.bits, hk.1],
      by simp [EXU.bits, hk.1]⟩

/-- A supported instruction that has been executed has no exception. -/
theorem Executes.plain (h : Executes s b) (hs : s.Supported routed) : Plain b := by
  obtain ⟨x, csr, hx, rfl⟩ := h
  exact hx.plain hs

/-- An instruction asks the memory for its own operation. -/
theorem Executes.reqOp (h : Executes s b) (hs : s.Supported routed) :
    LSU.reqOp b = b.lsuOp := by
  simp [LSU.reqOp, (h.plain hs).noExcp]

/-- An access goes to the address of the reference model, which is aligned and routed. -/
theorem Executes.access (h : Executes s b) (hs : s.Supported routed)
    (hop : LSU.reqOp b ≠ .nop) : ∃ n, (LSU.reqOp b).len = some n ∧
      b.lsuAddr.toNat % n = 0 ∧ routed b.lsuAddr := by
  have hreq := h.reqOp hs
  obtain ⟨x, csr, hx, rfl⟩ := h
  rw [hreq] at hop ⊢
  have hlen : x.lsuOp.len = s.accessLen := (hx.row hs).len
  have haddr : (EXU.bits x csr).lsuAddr = s.dataAddr := hx.result hs hop csr
  have hsome : ∃ n, x.lsuOp.len = some n := by
    have hop' : x.lsuOp ≠ .nop := hop
    cases hxo : x.lsuOp <;> simp [LSUOp.len, hxo] at hop' ⊢
  obtain ⟨n, hn⟩ := hsome
  rw [hn] at hlen
  rw [haddr]
  exact ⟨n, hn, hs.dataAligned n hlen.symm, hs.dataRouted n hlen.symm⟩

/-- What the reference model stores. -/
theorem Executes.store (h : Executes s b) (hs : s.Supported routed) {e : Effect}
    (he : decodeExec s = some e) :
    e.store = if (LSU.reqOp b).stores then
      (LSU.reqOp b).len.map fun n => ⟨b.lsuAddr, n, b.lsuStoreData⟩ else none := by
  rw [h.reqOp hs]
  obtain ⟨x, csr, hx, rfl⟩ := h
  rw [hx.effect hs csr, Option.some_inj] at he
  rw [← he]
  rfl

/-- A store fits in a word. -/
theorem Executes.store_fits (h : Executes s b) (hs : s.Supported routed) {e : Effect}
    (he : decodeExec s = some e) {st : Store} (hst : e.store = some st) :
    st.addr.toNat % 4 + st.len ≤ 4 := by
  rw [h.store hs he] at hst
  split_ifs at hst with hstores
  obtain ⟨n, hn, rfl⟩ := Option.map_eq_some_iff.mp hst
  have hop : LSU.reqOp b ≠ .nop := fun hop => by simp [hop, LSUOp.stores] at hstores
  obtain ⟨n', hn', halign, -⟩ := h.access hs hop
  rw [hn, Option.some_inj] at hn'
  subst hn'
  exact LSUOp.fits hn halign

/-- Only loads depend on the word that was read. -/
theorem lsOut_congr {u u' : LSU} (h : LSU.entryState b = .rAddr → u.readReg = u'.readReg) :
    u.lsOut b = u'.lsOut b := by
  cases hop : LSU.reqOp b <;>
    simp only [LSU.entryState, hop, forall_const, reduceCtorEq, false_implies] at h <;>
    simp [LSU.lsOut, LSU.selectedLoadedData, hop, h]

/-- **What write-back gets** is what the reference model assigns to `R(rd)`, if the load
and store unit has the word around the address of a load. -/
theorem Executes.rd (h : Executes s b) (hs : s.Supported routed) {e : Effect}
    (he : decodeExec s = some e) {u : LSU}
    (hread : LSU.entryState b = .rAddr → u.readReg = alignedWord s.mem b.lsuAddr) :
    e.rd = if b.rdWe then some (b.rdAddr, u.lsOut b) else none := by
  have hls : u.lsOut b = LSU.lsOut ⟨.waitReady, alignedWord s.mem b.lsuAddr, false⟩ b :=
    lsOut_congr hread
  rw [hls]
  obtain ⟨x, csr, hx, rfl⟩ := h
  rw [hx.effect hs csr, Option.some_inj] at he
  rw [← he]
  rfl

/-- What has been executed retires with the effect of the reference. -/
theorem Executes.retires (h : Executes s b) (hs : s.Supported routed) {u : LSU}
    (hfault : u.accessFault = false)
    (hread : LSU.entryState b = .rAddr → u.readReg = alignedWord s.mem b.lsuAddr) :
    Retires s (u.bits b) := by
  have hplain := h.plain hs
  have hpc : b.pc = s.pc := by
    obtain ⟨x, csr, hx, rfl⟩ := h
    exact hx.pc
  have heff : ∃ e, decodeExec s = some e := by
    obtain ⟨x, csr, hx, rfl⟩ := h
    exact ⟨_, hx.effect hs csr⟩
  obtain ⟨e, he⟩ := heff
  exact ⟨hpc, ⟨e, he, h.rd hs he hread⟩, by simp [LSU.bits, LSU.excp, hplain.noExcp, hfault],
    hplain.noReturn, hplain.noFence⟩

end

/-! ## Forwarding -/

/-- A stage announces the register that its instruction writes: `g` are the registers
before the instruction, `g'` those after it. -/
structure Announces (h : HazardInfo) (g g' : BitVec 5 → Word) : Prop where
  other : ∀ rs, rs ≠ 0 → ¬ (h.valid = true ∧ h.rd = rs) → g' rs = g rs
  value : h.valid = true → h.dataValid = true → h.rd ≠ 0 → g' h.rd = h.data

/-- An empty stage announces nothing. -/
theorem Announces.of_empty {h : HazardInfo} {g : BitVec 5 → Word} (hv : h.valid = false) :
    Announces h g g :=
  ⟨fun _ _ _ => rfl, fun hv' => by simp [hv] at hv'⟩

/-- An instruction announces what it assigns to `R(rd)`. -/
theorem Announces.of_effect {h : HazardInfo} {s : CPU} {e : Effect} {v : Word}
    (hrd : e.rd = if h.valid then some (h.rd, v) else none)
    (hdata : h.dataValid = true → h.data = v) : Announces h s.gpr (s.apply e).gpr where
  other rs hne hno := by
    cases hv : h.valid with
    | false => exact CPU.apply_gpr_of_none hne (by simp [hrd, hv])
    | true =>
        rw [hv, if_pos rfl] at hrd
        have hrs : rs ≠ h.rd := fun heq => hno ⟨hv, heq.symm⟩
        rw [CPU.apply_gpr_of_some hne hrd, if_neg hrs]
  value hv hd hne := by
    rw [hv, if_pos rfl] at hrd
    rw [CPU.apply_gpr_of_some hne hrd, if_pos rfl, hdata hd]

/-- The decoder waits for the register. -/
def Waits (h : HazardInfo) (rs : BitVec 5) : Prop :=
  h.valid = true ∧ h.rd = rs ∧ h.dataValid = false

/-- The nearest stage comes first. -/
theorem forwardReg_cons_eq {h : HazardInfo} {hs : List HazardInfo} {rs : BitVec 5} {d : Word}
    (hne : rs ≠ 0) (hw : ¬ Waits h rs) : IDU.forwardReg (h :: hs) rs d =
      if h.valid = true ∧ h.rd = rs then h.data else IDU.forwardReg hs rs d := by
  rw [IDU.forwardReg, List.find?_cons]
  by_cases hv : h.valid = true ∧ h.rd = rs
  · have hd : h.dataValid = true := by
      by_contra hd
      exact hw ⟨hv.1, hv.2, by simpa using hd⟩
    rw [if_pos hv]
    simp only [hne, ne_eq, not_false_eq_true, decide_true, hv.1, hv.2, hd, Bool.and_self]
  · have hno : (decide (rs ≠ 0) && h.valid && decide (h.rd = rs) && h.dataValid) = false := by
      rw [not_and_or, Bool.not_eq_true] at hv
      rcases hv with hv | hv <;> simp [hv]
    rw [if_neg hv, hno]
    rfl

/-- **Forwarding from one more stage.** -/
theorem forwardReg_cons {h : HazardInfo} {hs : List HazardInfo} {g g' : BitVec 5 → Word}
    {rs : BitVec 5} {d : Word} (ha : Announces h g g') (hne : rs ≠ 0) (hw : ¬ Waits h rs)
    (hrest : IDU.forwardReg hs rs d = g rs) : IDU.forwardReg (h :: hs) rs d = g' rs := by
  rw [forwardReg_cons_eq hne hw]
  split_ifs with hv
  · have hd : h.dataValid = true := by
      by_contra hd
      exact hw ⟨hv.1, hv.2, by simpa using hd⟩
    rw [← hv.2] at hne
    rw [← hv.2]
    exact (ha.value hv.1 hd hne).symm
  · rw [ha.other rs hne hv]
    exact hrest

/-- Register 0 is not forwarded. -/
@[simp] theorem forwardReg_zero (hs : List HazardInfo) (d : Word) : IDU.forwardReg hs 0 d = d := by
  have hnone : (hs.find? fun info => decide ((0 : BitVec 5) ≠ 0) && info.valid &&
      decide (info.rd = 0) && info.dataValid) = none := List.find?_eq_none.mpr fun _ _ => by simp
  rw [IDU.forwardReg, hnone]

/-- Without a stall no stage ahead holds the register back. -/
theorem not_waits_of_not_needStall {hs : List HazardInfo} {rs : BitVec 5}
    (h : IDU.needStall hs rs true = false) (hne : rs ≠ 0) : ∀ info ∈ hs, ¬ Waits info rs := by
  rintro info hmem ⟨hv, hrd, hd⟩
  simp only [IDU.needStall, hne, ne_eq, not_false_eq_true, decide_true, Bool.and_self,
    Bool.true_and] at h
  have := List.any_eq_false.mp h info hmem
  simp [hv, hrd, hd] at this

/-- The decoder forwards the operands; it is as if the register file had them. -/
theorem bits_forwarded (hs : List HazardInfo) (o : IFUOut) (d1 d2 : Word) :
    IDU.bits hs o d1 d2 = IDU.bits [] o (IDU.forwardReg hs (IDU.rs1 o.inst) d1)
      (IDU.forwardReg hs (IDU.rs2 o.inst) d2) := rfl

section

variable {routed : Word → Prop} {s : CPU}

/-- The execution unit announces the register that the instruction writes. -/
theorem Issues.announces {x : IDUOut} (h : Issues s x) (hs : s.Supported routed) {e : Effect}
    (he : decodeExec s = some e) (csr : Word) :
    Announces (EXU.hazard x csr true) s.gpr (s.apply e).gpr := by
  have hexec : Executes s (EXU.bits x csr) := ⟨x, csr, h, rfl⟩
  refine Announces.of_effect (hexec.rd (u := ⟨.waitReady, alignedWord s.mem _, false⟩) hs he
    fun _ => rfl) fun hd => ?_
  -- the value is there for an instruction that is not a load
  have hop : LSU.reqOp (EXU.bits x csr) = .nop := by
    rw [hexec.reqOp hs]
    rcases (h.row hs).kind with hk | hk
    · exact hk.2
    · simp [EXU.hazard, hk.1] at hd
  rw [LSU.lsOut, if_pos hop]
  rfl

/-- The load and store unit announces the register, with the word that was read. -/
theorem Executes.announces {b : EXUOut} (h : Executes s b) (hs : s.Supported routed) {e : Effect}
    (he : decodeExec s = some e) {u : LSU}
    (hread : u.state = .waitReady → LSU.entryState b = .rAddr →
      u.readReg = alignedWord s.mem b.lsuAddr) :
    Announces (u.hazard ⟨true, b⟩) s.gpr (s.apply e).gpr := by
  refine Announces.of_effect (h.rd (u := ⟨.waitReady, alignedWord s.mem _, false⟩) hs he
    fun _ => rfl) fun hd => lsOut_congr fun hload => ?_
  refine hread ?_ hload
  have hop : LSU.reqOp b ≠ .nop := fun hop => by simp [LSU.entryState, hop] at hload
  simpa [LSU.hazard, hop] using hd

/-- The write back stage announces the register with its value. -/
theorem Retires.announces {b : LSUOut} (h : Retires s b) {e : Effect}
    (he : decodeExec s = some e) : Announces (WBU.hazard ⟨true, b⟩) s.gpr (s.apply e).gpr := by
  obtain ⟨e', he', hrd⟩ := h.effect
  rw [he, Option.some_inj] at he'
  subst he'
  refine Announces.of_effect (v := b.lsOut) ?_ fun _ => rfl
  simp [WBU.hazard, hrd, h.noExcp]

end

end Bailuwan
