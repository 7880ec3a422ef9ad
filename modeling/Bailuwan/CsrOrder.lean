/-
# Program order on the CSR file

A CSR instruction reads the CSR file in the execution stage and writes it in
write-back, and nothing forwards the write.  At most one older instruction is still on
its way when the execution stage hands an instruction over (`older`), and whether the
value read is the one of program order depends on that instruction alone
(`csr_program_order_iff`).
-/
import Bailuwan.SideEffects
import Bailuwan.Simulator

namespace Bailuwan

open Synchronous AXI4

namespace CSRFile

/-- The CSRs that a program and the traps write. -/
def trapCsrs : List (BitVec 12) := [CSR.mstatus, CSR.mtvec, CSR.mepc, CSR.mcause, CSR.mtval]

/-- Without a trap, a CSR changes to what is written to it. -/
theorem read_next {f : CSRFile} {w : Write} {excp : ExceptionInfo} {epc : Word} {a : BitVec 12}
    (ha : a ∈ trapCsrs) (he : excp.valid = false) :
    (f.next w excp epc).read a = if w.enable = true ∧ w.addr = a then w.data else f.read a := by
  simp only [trapCsrs, List.mem_cons, List.not_mem_nil, or_false] at ha
  rcases ha with rfl | rfl | rfl | rfl | rfl <;>
    simp only [read, next, writable, he, Bool.and_eq_true, decide_eq_true_eq] <;> rfl

end CSRFile

namespace Core

variable {c : Core} {io : In}

/-! ## Reads and the write they can miss -/

/-- The execution stage hands over a CSR instruction on one of the trap CSRs. -/
structure ReadsCsr (c : Core) : Prop where
  fire : c.exuFire = true
  isCsr : c.exuIn.bits.execType = .csr
  noExcp : c.exuIn.bits.exception.valid = false
  addr : c.exuIn.bits.csrAddr ∈ CSRFile.trapCsrs

/-- The instruction that is about to write back, from write-back itself or from the load
and store unit in front of it. -/
def older (c : Core) : Valid LSUOut :=
  if c.wbuIn.valid then c.wbuIn else ⟨c.lsu.outValid, c.lsu.bits c.lsuIn.bits⟩

/-- A CSR instruction reads a value that the instruction ahead of it is about to change. -/
structure StaleRead (c : Core) : Prop where
  reads : ReadsCsr c
  stays : WBU.redirectValid c.older = false
  writes : WBU.csrRdWe c.older = true
  same : c.older.bits.csrRdAddr = c.exuIn.bits.csrAddr
  changes : c.older.bits.csrRdData ≠ c.csrRsData

/-- When an instruction that reads a CSR in cycle `t` is in write-back in cycle `u`, it has
read the value that all older instructions left, it returns this value, and what it is
going to write is computed from it. -/
structure InProgramOrder (r : machine.Run) (t u : ℕ) : Prop where
  reads : (r.st t).csrRsData = (r.st u).csrFile.read (r.st t).exuIn.bits.csrAddr
  returns : (r.st u).wbuIn.bits.lsOut = (r.st u).csrFile.read (r.st t).exuIn.bits.csrAddr
  writes : (r.st u).wbuIn.bits.csrRdData = EXU.csrRdData (r.st t).exuIn.bits
    ((r.st u).csrFile.read (r.st t).exuIn.bits.csrAddr)

/-- **The statement about the CSR file.** -/
def CsrProgramOrder (r : machine.Run) : Prop :=
  ∀ t u, ReadsCsr (r.st t) → (r.st u).wbuIn.valid = true →
    (trace r u).wbu = (trace r t).exu → InProgramOrder r t u

/-! ## The way to write-back -/

/-- One cycle of a trap CSR. -/
theorem csr_next {a : BitVec 12} (ha : a ∈ CSRFile.trapCsrs) (hf : c.wbuFlush = false) :
    (c.next io).csrFile.read a =
      if WBU.csrRdWe c.wbuIn = true ∧ c.wbuIn.bits.csrRdAddr = a then c.wbuIn.bits.csrRdData
      else c.csrFile.read a := by
  refine CSRFile.read_next ha ?_
  simp only [wbuFlush, WBU.redirectValid, Bool.and_eq_false_iff, Bool.or_eq_false_iff] at hf
  rcases hf with hf | hf
  · simp [WBU.exception, hf]
  · simp [WBU.exception, hf.1]

/-- An instruction that has been handed over waits at an idle load and store unit. -/
theorem next_idle_of_exuFire (hfire : c.exuFire = true) : (c.next io).lsu.state = .idle := by
  have hr : c.lsuInReady = true := (Bool.and_eq_true_iff.mp hfire).2
  simp only [lsuInReady, LSU.inReady, Bool.or_eq_true, Bool.and_eq_true, decide_eq_true_eq,
    Bool.not_eq_true'] at hr
  rcases hr with hr | hr
  · simp [next_lsu_state, LSU.nextState, hr.1, hr.2]
  · simp [next_lsu_state, LSU.nextState, hr.1, LSU.outFire, LSU.outValid_eq]

variable {r : machine.Run} {t : ℕ}

/-- The instruction about to write back is in write-back now or in the next cycle. -/
theorem older_eq (hf : (r.st t).wbuFlush = false) :
    ((r.st t).wbuIn.valid = true ∧ (r.st t).older = (r.st t).wbuIn ∧
      (r.st (t + 1)).wbuIn.valid = false) ∨
    ((r.st t).wbuIn.valid = false ∧ (r.st (t + 1)).wbuIn.valid = (r.st t).older.valid ∧
      ((r.st t).older.valid = true → (r.st (t + 1)).wbuIn.bits = (r.st t).older.bits)) := by
  cases hv : (r.st t).wbuIn.valid with
  | true =>
      refine .inl ⟨rfl, by simp [older, hv], ?_⟩
      rw [st_succ, next_wbuIn_valid, (pipelineInv r t).drained hv]
      simp
  | false =>
      have hold : (r.st t).older =
          ⟨(r.st t).lsu.outValid, (r.st t).lsu.bits (r.st t).lsuIn.bits⟩ := by
        simp [older, hv]
      refine .inr ⟨rfl, ?_, fun hw => ?_⟩
      · rw [hold, st_succ, next_wbuIn_valid, hf, LSU.outValid_eq]
        rfl
      · rw [hold] at hw ⊢
        rw [st_succ, next_wbuIn_bits (by simpa [LSU.outValid_eq] using hw)]

/-- What leaves the execution unit is in the load and store unit in the next cycle. -/
theorem handed_over (hfire : (r.st t).exuFire = true) (hf : (r.st t).wbuFlush = false) :
    (r.st (t + 1)).lsuIn.valid = true ∧ (trace r (t + 1)).lsu = (trace r t).exu := by
  obtain ⟨hv, hr⟩ := Bool.and_eq_true_iff.mp hfire
  refine ⟨?_, by simp [trace_succ, Trace.next, hfire]⟩
  rw [st_succ, next_lsuIn_valid, hf, hr, hv]
  rfl

/-- An instruction without an access to memory reaches write-back in three cycles. -/
structure Passes (r : machine.Run) (t : ℕ) : Prop where
  empty : (r.st (t + 2)).wbuIn.valid = false
  valid : (r.st (t + 3)).wbuIn.valid = true
  name : (trace r (t + 3)).wbu = (trace r t).exu
  bits : ∃ u : LSU, (r.st (t + 3)).wbuIn.bits =
    u.bits (EXU.bits (r.st t).exuIn.bits (r.st t).csrRsData)

/-- It does so unless one of the first two cycles flushes it. -/
theorem passes (hfire : (r.st t).exuFire = true)
    (hop : LSU.reqOp (EXU.bits (r.st t).exuIn.bits (r.st t).csrRsData) = .nop)
    (hf : (r.st t).wbuFlush = false) (hf' : (r.st (t + 1)).wbuFlush = false) : Passes r t := by
  obtain ⟨hv1, hn1⟩ := handed_over hfire hf
  have hb1 : (r.st (t + 1)).lsuIn.bits = EXU.bits (r.st t).exuIn.bits (r.st t).csrRsData := by
    rw [st_succ, next_lsuIn_of_exuFire hfire]
  have hs1 : (r.st (t + 1)).lsu.state = .idle := by
    rw [st_succ]
    exact next_idle_of_exuFire hfire
  -- the second cycle: the unit takes the instruction and has nothing to do for it
  have hr1 : (r.st (t + 1)).lsuInReady = false := by
    rw [lsuInReady, LSU.inReady_of_idle hs1, hv1]
    rfl
  have hfire1 : (r.st (t + 1)).exuFire = false := by simp [exuFire, hr1]
  have hs2 : (r.st (t + 2)).lsu.state = .waitReady := by
    rw [st_succ, next_lsu_state, LSU.nextState, hs1, hv1, hf', hb1]
    simp [LSU.entryState, hop]
  have hb2 : (r.st (t + 2)).lsuIn.bits = (r.st (t + 1)).lsuIn.bits := by
    rw [st_succ r (t + 1), next_lsuIn_of_not_ready hr1]
  have hn2 : (trace r (t + 2)).lsu = (trace r t).exu := by
    rw [trace_succ r (t + 1)]
    simp [Trace.next, hfire1, hn1]
  have hw2 : (r.st (t + 2)).wbuIn.valid = false := by
    rw [st_succ, next_wbuIn_valid, hs1]
    simp
  have hf2 : (r.st (t + 2)).wbuFlush = false := by simp [wbuFlush, WBU.redirectValid, hw2]
  -- the third cycle: the unit hands it over
  have hb3 : (r.st (t + 3)).wbuIn.bits = (r.st (t + 2)).lsu.bits (r.st (t + 2)).lsuIn.bits := by
    rw [st_succ r (t + 2), next_wbuIn_bits hs2]
  refine ⟨hw2, ?_, ?_, ⟨_, by rw [hb3, hb2, hb1]⟩⟩
  · rw [st_succ, next_wbuIn_valid, hf2, hs2]
    rfl
  · rw [trace_succ r (t + 2)]
    simp [Trace.next, LSU.outValid_eq, hs2, hn2]

/-- What such an instruction returns. -/
theorem lsOut_of_nop {u : LSU} {b : EXUOut} (hop : LSU.reqOp b = .nop) :
    (u.bits b).lsOut = b.exOut := by
  simp [LSU.bits, LSU.lsOut, hop]

/-- A CSR instruction reaches write-back in three cycles, unless one of the first two
flushes it. -/
structure Arrives (r : machine.Run) (t : ℕ) : Prop where
  empty : (r.st (t + 2)).wbuIn.valid = false
  valid : (r.st (t + 3)).wbuIn.valid = true
  name : (trace r (t + 3)).wbu = (trace r t).exu
  returns : (r.st (t + 3)).wbuIn.bits.lsOut = (r.st t).csrRsData
  writes : (r.st (t + 3)).wbuIn.bits.csrRdData =
    EXU.csrRdData (r.st t).exuIn.bits (r.st t).csrRsData

/-- A read that is not flushed gets to the register. -/
theorem ReadsCsr.arrives (h : ReadsCsr (r.st t)) (hf : (r.st t).wbuFlush = false)
    (hf' : (r.st (t + 1)).wbuFlush = false) : Arrives r t := by
  have hop : LSU.reqOp (EXU.bits (r.st t).exuIn.bits (r.st t).csrRsData) = .nop := by
    obtain ⟨hz, o, d1, d2, hd⟩ := decoded r t (Bool.and_eq_true_iff.mp h.fire).1
    have hcsr := h.isCsr
    rw [hd] at hcsr
    have hlsu := InstDecodeTable.lsuOp_of_csr o.inst hcsr
    have hbits : (EXU.bits (r.st t).exuIn.bits (r.st t).csrRsData).lsuOp = .nop := by
      rw [hd]
      exact hlsu
    simp [LSU.reqOp, hbits]
  obtain ⟨hempty, hvalid, hname, u, hbits⟩ := passes h.fire hop hf hf'
  refine ⟨hempty, hvalid, hname, ?_, ?_⟩
  · rw [hbits, lsOut_of_nop hop, EXU.bits, EXU.exOut, h.isCsr]
  · rw [hbits]
    rfl

/-- What the CSR holds when the instruction arrives. -/
theorem ReadsCsr.read_at_arrival (h : ReadsCsr (r.st t)) (hf : (r.st t).wbuFlush = false)
    (hf' : (r.st (t + 1)).wbuFlush = false) :
    (r.st (t + 3)).csrFile.read (r.st t).exuIn.bits.csrAddr =
      if WBU.csrRdWe (r.st t).older = true ∧
        (r.st t).older.bits.csrRdAddr = (r.st t).exuIn.bits.csrAddr
      then (r.st t).older.bits.csrRdData else (r.st t).csrRsData := by
  have hempty := (h.arrives hf hf').empty
  have hf2 : (r.st (t + 2)).wbuFlush = false := by simp [wbuFlush, WBU.redirectValid, hempty]
  have hnone : ∀ {u}, (r.st u).wbuIn.valid = false → WBU.csrRdWe (r.st u).wbuIn = false :=
    fun hu => by simp [WBU.csrRdWe, hu]
  rw [st_succ r (t + 2), csr_next h.addr hf2, hnone hempty, st_succ r (t + 1),
    csr_next h.addr hf']
  simp only [Bool.false_eq_true, false_and, if_false]
  rcases older_eq hf with ⟨-, hold, hnext⟩ | ⟨hnow, hvalid, hbits⟩
  · rw [hnone hnext, st_succ, csr_next h.addr hf, hold]
    rfl
  · rw [st_succ r t, csr_next h.addr hf, hnone hnow, ← st_succ r t]
    cases hv : (r.st t).older.valid with
    | true =>
        rw [hbits hv]
        simp [WBU.csrRdWe, hvalid, hv, hbits hv, csrRsData]
    | false =>
        rw [hv] at hvalid
        simp [WBU.csrRdWe, hvalid, hv, csrRsData]

/-- No flush catches an instruction handed over now if the one ahead of it causes none. -/
theorem flush_iff : ((r.st t).wbuFlush = false ∧ (r.st (t + 1)).wbuFlush = false) ↔
      WBU.redirectValid (r.st t).older = false := by
  cases hf : (r.st t).wbuFlush with
  | true =>
      have hv : (r.st t).wbuIn.valid = true := (Bool.and_eq_true_iff.mp hf).1
      have hold : (r.st t).older = (r.st t).wbuIn := by simp [older, hv]
      have hnow : WBU.redirectValid (r.st t).wbuIn = true := hf
      simp [hold, hnow]
  | false =>
      simp only [true_and]
      rcases older_eq hf with ⟨-, hold, hnext⟩ | ⟨-, hvalid, hbits⟩
      · rw [hold]
        have hnow : WBU.redirectValid (r.st t).wbuIn = false := hf
        rw [hnow, wbuFlush]
        simp [WBU.redirectValid, hnext]
      · cases hv : (r.st t).older.valid with
        | true => simp [wbuFlush, WBU.redirectValid, hvalid, hv, hbits hv]
        | false => simp [wbuFlush, WBU.redirectValid, hvalid, hv]

/-! ## Names in write-back -/

/-- Once `e` has been in write-back, everything in flight is younger. -/
theorem live_gt_of_wbu {u e : ℕ} (he : e ∈ name (r.st t).wbuIn (trace r t).wbu)
    (hu : t + 1 ≤ u) : ∀ n ∈ live (r.st u) (trace r u), e < n := by
  have hin := inOrder r t
  have hissued : e ∈ (trace r t).issued := hin.issued e (List.mem_append_left _ he)
  have hsorted := hin.sorted
  rw [live, List.pairwise_append] at hsorted
  induction u, hu using Nat.le_induction with
  | base =>
      intro n hn
      rcases mem_live_succ hn with hn | hn | hn
      · exact hsorted.2.2 e he n (List.mem_append_left _ hn)
      · exact hsorted.2.2 e he n (List.mem_append_right _ hn)
      · exact hin.issued_lt_fresh hissued hn
  | succ u hu ih =>
      intro n hn
      rcases mem_live_succ hn with hn | hn | hn
      · exact ih n (mem_live_of_back (.inl hn))
      · exact ih n (mem_live_of_back (.inr hn))
      · exact (inOrder r u).issued_lt_fresh
          ((live_ge (.inl he) hu).1) hn

/-- What is in flight was requested before. -/
theorem lt_of_live {e : ℕ} (he : e ∈ live (r.st t) (trace r t)) : e < t := by
  have hin := inOrder r t
  have hnow := trace_now (r := r) t
  have hclock := hin.account.clock
  rcases hin.older e (hin.issued e he) with hold | hold
  · omega
  · have hbal := hin.account.balance
    obtain ⟨x, hx, rfl⟩ := List.mem_map.mp hold
    have := (hin.account.fresh x (by rw [hbal]; simp [hx])).2
    omega

/-- An instruction that is handed over gets to write-back later than its predecessor,
and not at all if write-back is flushed before. -/
theorem not_flushed_of_wbu {u : ℕ} (hfire : (r.st t).exuFire = true)
    (hv : (r.st u).wbuIn.valid = true) (hname : (trace r u).wbu = (trace r t).exu) :
    (r.st t).wbuFlush = false ∧ (r.st (t + 1)).wbuFlush = false := by
  have hwbu : (trace r t).exu ∈ name (r.st u).wbuIn (trace r u).wbu := by simp [hv, hname]
  have hexu : (trace r t).exu ∈ live (r.st t) (trace r t) :=
    mem_live_of_back (.inr (List.mem_append_left _ (by
      simp [(Bool.and_eq_true_iff.mp hfire).1])))
  -- write-back never holds what is still at the execution stage
  have hlater : t < u := by
    rcases lt_trichotomy u t with h | rfl | h
    · exact absurd (live_gt_of_wbu hwbu h _ hexu) (lt_irrefl _)
    · have hsorted := (inOrder r u).sorted
      rw [live, List.pairwise_append] at hsorted
      refine absurd (hsorted.2.2 _ hwbu _ (List.mem_append_right _ (List.mem_append_left _ ?_)))
        (lt_irrefl (trace r u).exu)
      simp [(Bool.and_eq_true_iff.mp hfire).1]
    · exact h
  have hlive : (trace r t).exu ∈ live (r.st u) (trace r u) := List.mem_append_left _ hwbu
  have hf : (r.st t).wbuFlush = false := by
    by_contra hf
    have hlt := live_after_wbuFlush (by simpa using hf) hlater hlive
    have := lt_of_live hexu
    omega
  refine ⟨hf, ?_⟩
  obtain ⟨hv1, hn1⟩ := handed_over hfire hf
  have hlsu : (trace r t).exu ∈ name (r.st (t + 1)).lsuIn (trace r (t + 1)).lsu := by
    simp [hv1, hn1]
  by_contra hf'
  rcases Nat.lt_or_ge (t + 1) u with hu | hu
  · have hlt := live_after_wbuFlush (by simpa using hf') hu hlive
    have := lt_of_live hexu
    omega
  · obtain rfl : u = t + 1 := by omega
    have hsorted := (inOrder r (t + 1)).sorted
    rw [live, List.pairwise_append] at hsorted
    exact absurd (hsorted.2.2 _ hwbu _ (List.mem_append_left _ hlsu)) (lt_irrefl _)

/-- An instruction is in write-back for one cycle. -/
theorem wbu_unique {u v e : ℕ} (hu : e ∈ name (r.st u).wbuIn (trace r u).wbu)
    (hv : e ∈ name (r.st v).wbuIn (trace r v).wbu) : u = v := by
  rcases lt_trichotomy u v with h | h | h
  · exact absurd (live_gt_of_wbu hu h e (List.mem_append_left _ hv)) (lt_irrefl _)
  · exact h
  · exact absurd (live_gt_of_wbu hv h e (List.mem_append_left _ hu)) (lt_irrefl _)

/-! ## The main theorem -/

/-- A stale read reaches write-back with the value it has read. -/
theorem StaleRead.not_in_order (hs : StaleRead (r.st t)) : ¬ CsrProgramOrder r := by
  intro h
  obtain ⟨hf, hf'⟩ := flush_iff.mpr hs.stays
  have harr := hs.reads.arrives hf hf'
  have hread := (h t (t + 3) hs.reads harr.valid harr.name).reads
  rw [hs.reads.read_at_arrival hf hf', if_pos ⟨hs.writes, hs.same⟩] at hread
  exact hs.changes hread.symm

/-- **CSR program order** holds in a run exactly when no CSR instruction reads a value
that the instruction ahead of it is about to change. -/
theorem csr_program_order_iff (r : machine.Run) :
    CsrProgramOrder r ↔ ∀ t, ¬ StaleRead (r.st t) := by
  constructor
  · exact fun h t hs => hs.not_in_order h
  · intro h t u hr hv hname
    obtain ⟨hf, hf'⟩ := not_flushed_of_wbu hr.fire hv hname
    have harr := hr.arrives hf hf'
    have hu : (trace r t).exu ∈ name (r.st u).wbuIn (trace r u).wbu := by simp [hv, hname]
    have ht : (trace r t).exu ∈ name (r.st (t + 3)).wbuIn (trace r (t + 3)).wbu := by
      simp [harr.valid, harr.name]
    obtain rfl : u = t + 3 := wbu_unique hu ht
    have hread : (r.st (t + 3)).csrFile.read (r.st t).exuIn.bits.csrAddr =
        (r.st t).csrRsData := by
      rw [hr.read_at_arrival hf hf']
      split_ifs with hw
      · by_contra hne
        exact h t ⟨hr, flush_iff.mp ⟨hf, hf'⟩, hw.1, hw.2, hne⟩
      · rfl
    refine ⟨hread.symm, ?_, ?_⟩
    · rw [hread, harr.returns]
    · rw [hread, harr.writes]

instance : Decidable (ReadsCsr c) :=
  decidable_of_iff (c.exuFire = true ∧ c.exuIn.bits.execType = .csr ∧
      c.exuIn.bits.exception.valid = false ∧ c.exuIn.bits.csrAddr ∈ CSRFile.trapCsrs)
    ⟨fun ⟨h1, h2, h3, h4⟩ => ⟨h1, h2, h3, h4⟩, fun ⟨h1, h2, h3, h4⟩ => ⟨h1, h2, h3, h4⟩⟩

instance : Decidable (StaleRead c) :=
  decidable_of_iff (ReadsCsr c ∧ WBU.redirectValid c.older = false ∧
      WBU.csrRdWe c.older = true ∧ c.older.bits.csrRdAddr = c.exuIn.bits.csrAddr ∧
      c.older.bits.csrRdData ≠ c.csrRsData)
    ⟨fun ⟨h1, h2, h3, h4, h5⟩ => ⟨h1, h2, h3, h4, h5⟩,
      fun ⟨h1, h2, h3, h4, h5⟩ => ⟨h1, h2, h3, h4, h5⟩⟩

/-- `lui x1, 0x80000; csrw mtvec, x1; csrr x2, mtvec`. -/
def csrwThenCsrr (a : Word) : Word :=
  if a = 0x30000000 then 0x800000b7
  else if a = 0x30000004 then 0x30509073
  else if a = 0x30000008 then 0x30502173
  else 0x00000013

set_option maxRecDepth 100000 in
/-- The `csrr` returns the old value of `mtvec`, and writes it back. -/
theorem csrwThenCsrr_not_in_order : ¬ CsrProgramOrder (onMemory (ofWords csrwThenCsrr)) :=
  StaleRead.not_in_order (t := 15) (onMemory_check (by decide +kernel))

end Core

end Bailuwan
