/-
# The trace streams (`nemu/src/cpu/difftest/ref.c`, `tracesim/common/trace.cpp`)

`difftest_tracesim_step` fills a batch with the instructions it executes and stops early
when the program has ended; `drain_stream` asks for batches until it gets one that is not
full.  A last batch that the program just fills is taken for one with more to come, so the
streams are those of the executed instructions if and only if the batch size does not
divide their number (`complete_iff`).
-/
import Bailuwan.OneInstruction

namespace Bailuwan

namespace Nemu

/-! ## Decoding for the streams -/

/-- An entry for the data cache. -/
structure DcacheEntry where
  is_read : Bool
  addr : Word
  deriving DecidableEq, Repr

/-- An entry for the branch predictor. -/
structure BranchEntry where
  pc : Word
  target : Word
  is_uncond : Bool
  taken : Bool
  deriving DecidableEq, Repr

open InstPat in
/-- The patterns of `isa_decode_ldstr`, with what they assign to `is_read`. -/
def ldstrPats : List (BitPat × InstType × Bool) :=
  [(LB, .I, true), (LH, .I, true), (LW, .I, true), (LBU, .I, true), (LHU, .I, true),
   (SB, .S, false), (SH, .S, false), (SW, .S, false)]

/-- `isa_decode_ldstr`; none where decoding fails. -/
def isaDecodeLdstr (s : CPU) (inst : Word) : Option DcacheEntry :=
  match ldstrPats.find? fun row => row.1.matches inst with
  | some (_, type, is_read) =>
      let o := decodeOperand s inst type
      some ⟨is_read, o.src1 + o.imm⟩
  | none => none

open InstPat in
/-- The patterns of `isa_decode_branch`, with their bodies. -/
def branchPats : List (BitPat × InstType × (Word → Operands → BranchEntry)) :=
  [(BEQ, .B, fun pc o => ⟨pc, pc + o.imm, false, decide (o.src1 = o.src2)⟩),
   (BNE, .B, fun pc o => ⟨pc, pc + o.imm, false, decide (o.src1 ≠ o.src2)⟩),
   (BLT, .B, fun pc o => ⟨pc, pc + o.imm, false, o.src1.slt o.src2⟩),
   (BGE, .B, fun pc o => ⟨pc, pc + o.imm, false, !o.src1.slt o.src2⟩),
   (BLTU, .B, fun pc o => ⟨pc, pc + o.imm, false, o.src1.ult o.src2⟩),
   (BGEU, .B, fun pc o => ⟨pc, pc + o.imm, false, !o.src1.ult o.src2⟩),
   (JAL, .J, fun pc o => ⟨pc, pc + o.imm, true, true⟩),
   (JALR, .I, fun pc o => ⟨pc, (o.src1 + o.imm) &&& ~~~ 1, true, true⟩)]

/-- `isa_decode_branch`. -/
def isaDecodeBranch (s : CPU) (pc inst : Word) : Option BranchEntry :=
  match branchPats.find? fun row => row.1.matches inst with
  | some (_, type, body) => some (body pc (decodeOperand s inst type))
  | none => none

/-! ## Running the reference model (`cpu-exec.c`) -/

/-- The values of `nemu_state.state`. -/
inductive NEMUState
  | RUNNING
  | STOP
  | END
  | ABORT
  | QUIT
  deriving DecidableEq, Repr

/-- The reference model with `nemu_state`. -/
structure Ref where
  cpu : CPU
  state : NEMUState

/-- What `set_nemu_state` leaves in `nemu_state.state`. -/
def Stop.state : Stop → NEMUState
  | .ended _ => .END
  | .abort => .ABORT

/-- `execute(n)`; none where `todo` panics. -/
def execute : ℕ → Ref → Option Ref
  | 0, r => some r
  | n + 1, r => do
      let e ← decodeExec r.cpu
      let r : Ref := ⟨r.cpu.apply e, (e.stop.map Stop.state).getD r.state⟩
      if r.state ≠ .RUNNING then some r else execute n r

/-- `cpu_exec(n)`. -/
def cpuExec (n : ℕ) (r : Ref) : Option Ref :=
  match r.state with
  | .END | .ABORT | .QUIT => some r
  | .RUNNING | .STOP => do
      let r ← execute n { r with state := .RUNNING }
      some (if r.state = .RUNNING then { r with state := .STOP } else r)

/-! ## The streams -/

/-- `tracesim_batch`; the sizes are the lengths of the streams. -/
@[ext]
structure Batch where
  i_stream : List Word := []
  d_stream : List DcacheEntry := []
  b_stream : List BranchEntry := []
  deriving DecidableEq, Repr

namespace Batch

/-- The three streams of one batch after those of another. -/
def append (x y : Batch) : Batch :=
  ⟨x.i_stream ++ y.i_stream, x.d_stream ++ y.d_stream, x.b_stream ++ y.b_stream⟩

/-- What is written for the instruction about to be executed. -/
def push (x : Batch) (s : CPU) : Batch :=
  x.append ⟨[s.pc], (isaDecodeLdstr s s.inst).toList, (isaDecodeBranch s s.pc s.inst).toList⟩

@[simp] theorem append_empty (x : Batch) : x.append {} = x := by
  ext1 <;> simp [append]

@[simp] theorem empty_append (x : Batch) : Batch.append {} x = x := rfl

/-- Putting batches together is associative. -/
theorem append_assoc (x y z : Batch) : (x.append y).append z = x.append (y.append z) := by
  ext1 <;> simp [append]

end Batch

/-- The loop of `difftest_tracesim_step`, with room for `n` more instructions. -/
def tracesimLoop : ℕ → Ref → Batch → Option (Ref × Batch)
  | 0, r, batch => some (r, batch)
  | n + 1, r, batch => do
      let batch := batch.push r.cpu
      let r ← cpuExec 1 r
      if r.state = .END ∨ r.state = .ABORT ∨ r.state = .QUIT then some (r, batch)
      else tracesimLoop n r batch

/-- `difftest_tracesim_step`. -/
def difftestTracesimStep (tracesim_batch_size : ℕ) (r : Ref) : Option (Ref × Batch) :=
  tracesimLoop tracesim_batch_size r {}

/-- `drain_stream`: what the consumers get, if the loop ends within the given number of
batches. -/
def drainStream (BATCH_SIZE : ℕ) : ℕ → Ref → Option Batch
  | 0, _ => none
  | fuel + 1, r => do
      let (r, batch) ← difftestTracesimStep BATCH_SIZE r
      if batch.i_stream.length ≠ BATCH_SIZE then some batch
      else do
        let rest ← drainStream BATCH_SIZE fuel r
        some (batch.append rest)

/-! ## The statement -/

/-- An instruction that loads. -/
def Inst.loads : Inst → Bool
  | .lb | .lh | .lw | .lbu | .lhu => true
  | _ => false

/-- The access of the next instruction, if it is a load or a store. -/
def CPU.ldstr (s : CPU) : Option DcacheEntry :=
  if s.accessLen.isSome then some ⟨(decode s.inst).1.loads, s.dataAddr⟩ else none

/-- The branch that an instruction is. -/
def Inst.branch (pc : Word) (o : Operands) : Inst → Option BranchEntry
  | .beq => some ⟨pc, pc + o.imm, false, decide (o.src1 = o.src2)⟩
  | .bne => some ⟨pc, pc + o.imm, false, decide (o.src1 ≠ o.src2)⟩
  | .blt => some ⟨pc, pc + o.imm, false, o.src1.slt o.src2⟩
  | .bge => some ⟨pc, pc + o.imm, false, !o.src1.slt o.src2⟩
  | .bltu => some ⟨pc, pc + o.imm, false, o.src1.ult o.src2⟩
  | .bgeu => some ⟨pc, pc + o.imm, false, !o.src1.ult o.src2⟩
  | .jal => some ⟨pc, pc + o.imm, true, true⟩
  | .jalr => some ⟨pc, (o.src1 + o.imm) &&& ~~~ 1, true, true⟩
  | _ => none

/-- The branch of the next instruction, if it is one: its execution goes to the target if the branch
is taken (`branch_dnpc`). -/
def CPU.branch (s : CPU) : Option BranchEntry := (decode s.inst).1.branch s.pc s.operands

/-- What the streams are for the `n` instructions from number `k` on. -/
def trace (s : CPU) (k n : ℕ) : Batch where
  i_stream := (List.range' k n).map fun j => (run s j).pc
  d_stream := (List.range' k n).filterMap fun j => (run s j).ldstr
  b_stream := (List.range' k n).filterMap fun j => (run s j).branch

/-- The program ends with its instruction number `N`. -/
structure EndsAfter (s : CPU) (N : ℕ) : Prop where
  pos : 1 ≤ N
  step : ∀ k < N, ∃ e, decodeExec (run s k) = some e ∧ (e.stop.isSome = true ↔ k + 1 = N)

/-- **The statement about the streams**: the loop ends, and the consumers have got the streams
of the executed instructions. -/
def Complete (s : CPU) (N BATCH_SIZE : ℕ) : Prop :=
  ∃ fuel, drainStream BATCH_SIZE fuel ⟨s, .STOP⟩ = some (trace s 0 N)

/-! ## The decoders of the streams agree with the one that executes -/

/-- An instruction that is decoded as something else than `inv` matches its row. -/
theorem row_of_decode (inst : Word) (h : (Nemu.decode inst).1 ≠ .inv) :
    ∃ row ∈ instPats, row.1.matches inst = true ∧ Nemu.decode inst = row.2 := by
  unfold Nemu.decode at h ⊢
  cases hf : instPats.find? fun row => row.1.matches inst with
  | none =>
      rw [hf] at h
      exact absurd rfl h
  | some row => exact ⟨row, List.mem_of_find?_eq_some hf, by simpa using List.find?_some hf, rfl⟩

/-- The rows of the loads and stores are rows of NEMU's decoder. -/
theorem ldstrPats_rows : ∀ row ∈ ldstrPats, ∃ i : Inst,
    (row.1, i, row.2.1) ∈ instPats ∧ i.len.isSome = true ∧ i.loads = row.2.2 := by
  simp only [ldstrPats, List.forall_mem_cons, List.not_mem_nil, false_imp_iff, implies_true,
    and_true]
  refine ⟨⟨.lb, ?_⟩, ⟨.lh, ?_⟩, ⟨.lw, ?_⟩, ⟨.lbu, ?_⟩, ⟨.lhu, ?_⟩, ⟨.sb, ?_⟩, ⟨.sh, ?_⟩, ⟨.sw, ?_⟩⟩ <;>
    decide

/-- All the loads and stores of NEMU's decoder have a row. -/
theorem ldstrPats_complete : ∀ row ∈ instPats, row.2.1.len.isSome = true →
    ∃ r ∈ ldstrPats, r.1 = row.1 := by
  decide +kernel

/-- The loads and stores of the stream, by the row that executes. -/
theorem isaDecodeLdstr_word (s : CPU) (inst : Word) : isaDecodeLdstr s inst =
    if (decode inst).1.len.isSome then
      some ⟨(decode inst).1.loads, (decodeOperand s inst (decode inst).2).src1 +
        (decodeOperand s inst (decode inst).2).imm⟩
    else none := by
  rw [isaDecodeLdstr]
  cases hf : ldstrPats.find? fun row => row.1.matches inst with
  | some row =>
      obtain ⟨i, hi, hlen, hloads⟩ := ldstrPats_rows row (List.mem_of_find?_eq_some hf)
      have hdec := OneInst.decode_of_mem hi (by simpa using List.find?_some hf)
      rw [hdec, if_pos hlen, hloads]
  | none =>
      refine (if_neg fun hlen => ?_).symm
      obtain ⟨row, hrow, hm, hdec⟩ := row_of_decode inst (by
        intro hinv
        rw [hinv] at hlen
        exact absurd hlen (by decide))
      rw [hdec] at hlen
      obtain ⟨r, hr, heq⟩ := ldstrPats_complete row hrow hlen
      rw [← heq] at hm
      exact List.find?_eq_none.mp hf r hr hm

/-- **The loads and stores** are those that are executed. -/
theorem isaDecodeLdstr_eq (s : CPU) : isaDecodeLdstr s s.inst = s.ldstr :=
  isaDecodeLdstr_word s s.inst

/-- The rows of the branches are rows of NEMU's decoder. -/
theorem branchPats_rows : ∀ row ∈ branchPats, ∃ i : Inst,
    (row.1, i, row.2.1) ∈ instPats ∧ ∀ pc o, i.branch pc o = some (row.2.2 pc o) := by
  simp only [branchPats, List.forall_mem_cons, List.not_mem_nil, false_imp_iff, implies_true,
    and_true]
  refine ⟨⟨.beq, ?_⟩, ⟨.bne, ?_⟩, ⟨.blt, ?_⟩, ⟨.bge, ?_⟩, ⟨.bltu, ?_⟩, ⟨.bgeu, ?_⟩, ⟨.jal, ?_⟩,
    ⟨.jalr, ?_⟩⟩ <;>
    exact ⟨by decide, fun _ _ => rfl⟩

/-- All the branches of NEMU's decoder have a row. -/
theorem branchPats_complete : ∀ row ∈ instPats,
    (row.2.1.branch 0 ⟨0, 0, 0, 0, 0, 0⟩).isSome = true →
    row.1 ∈ branchPats.map Prod.fst := by
  decide +kernel

/-- Whether an instruction is a branch does not depend on its operands. -/
theorem isSome_branch (i : Inst) (pc : Word) (o : Operands) :
    (i.branch pc o).isSome = (i.branch 0 ⟨0, 0, 0, 0, 0, 0⟩).isSome := by
  cases i <;> rfl

/-- The branches of the stream, by the row that executes. -/
theorem isaDecodeBranch_word (s : CPU) (pc inst : Word) : isaDecodeBranch s pc inst =
    (decode inst).1.branch pc (decodeOperand s inst (decode inst).2) := by
  rw [isaDecodeBranch]
  cases hf : branchPats.find? fun row => row.1.matches inst with
  | some row =>
      obtain ⟨i, hi, hbody⟩ := branchPats_rows row (List.mem_of_find?_eq_some hf)
      have hdec := OneInst.decode_of_mem hi (by simpa using List.find?_some hf)
      rw [hdec]
      exact (hbody pc _).symm
  | none =>
      refine (Option.not_isSome_iff_eq_none.mp fun hsome => ?_).symm
      rw [isSome_branch] at hsome
      obtain ⟨row, hrow, hm, hdec⟩ := row_of_decode inst (by
        intro hinv
        rw [hinv] at hsome
        exact absurd hsome (by decide))
      rw [hdec] at hsome
      obtain ⟨r, hr, heq⟩ := List.mem_map.mp (branchPats_complete row hrow hsome)
      rw [← heq] at hm
      exact List.find?_eq_none.mp hf r hr hm

/-- **The branches** are those that are executed. -/
theorem isaDecodeBranch_eq (s : CPU) : isaDecodeBranch s s.pc s.inst = s.branch :=
  isaDecodeBranch_word s s.pc s.inst

/-- A branch goes to its target if it is taken, and to the next instruction otherwise. -/
theorem execBody_branch {s : CPU} {o : Operands} {i : Inst} {b : BranchEntry}
    (hb : i.branch s.pc o = some b) :
    ∃ e, execBody s o i = some e ∧ e.dnpc = if b.taken then b.target else s.pc + 4 := by
  cases i <;> cases hb <;> exact ⟨_, rfl, rfl⟩

/-- The target and the outcome of a branch are where its execution goes. -/
theorem branch_dnpc {s : CPU} {e : Effect} {b : BranchEntry} (he : decodeExec s = some e)
    (hb : s.branch = some b) : e.dnpc = if b.taken then b.target else s.pc + 4 := by
  obtain ⟨e', he', hdnpc⟩ := execBody_branch hb
  rw [decodeExec, ← CPU.operands, he'] at he
  cases he
  exact hdnpc

/-! ## One batch -/

section Runs

variable {s : CPU} {N k n : ℕ}

theorem trace_zero (s : CPU) (k : ℕ) : trace s k 0 = {} := rfl

/-- The streams begin with the next instruction. -/
theorem trace_succ (s : CPU) (k n : ℕ) :
    (Batch.push {} (run s k)).append (trace s (k + 1) n) = trace s k (n + 1) := by
  rw [Batch.push, isaDecodeLdstr_eq, isaDecodeBranch_eq, trace, trace, List.range'_succ]
  ext1
  · rfl
  · cases hd : (run s k).ldstr <;> simp [Batch.append, hd]
  · cases hb : (run s k).branch <;> simp [Batch.append, hb]

/-- An instruction is added at the end. -/
theorem push_append (x y : Batch) (s : CPU) :
    (x.push s).append y = x.append ((Batch.push {} s).append y) :=
  Batch.append_assoc ..

/-- Two traces put together are one. -/
theorem trace_append (s : CPU) (k m n : ℕ) :
    (trace s k m).append (trace s (k + m) n) = trace s k (m + n) := by
  induction m generalizing k with
  | zero => rw [trace_zero, Batch.empty_append, Nat.add_zero, Nat.zero_add]
  | succ m ih =>
      rw [← trace_succ, Batch.append_assoc, show k + (m + 1) = k + 1 + m by omega, ih,
        trace_succ, show m + n + 1 = m + 1 + n by omega]

@[simp] theorem trace_length (s : CPU) (k n : ℕ) : (trace s k n).i_stream.length = n := by
  simp [trace]

/-- `nemu_state` when no more instruction is executed. -/
def Ended (st : NEMUState) : Prop := st = .END ∨ st = .ABORT ∨ st = .QUIT

/-- A program that has stopped has ended. -/
theorem Stop.ended_state (stop : Stop) : Ended stop.state := by
  cases stop with
  | ended haltRet => exact .inl rfl
  | abort => exact .inr (.inl rfl)

/-- Nothing is executed after the end. -/
theorem cpuExec_of_ended {c : CPU} {st : NEMUState} (h : Ended st) :
    cpuExec n ⟨c, st⟩ = some ⟨c, st⟩ := by
  rcases h with rfl | rfl | rfl <;> rfl

/-- The run executes one instruction after the other. -/
theorem run_succ {e : Effect} (he : decodeExec (run s k) = some e) :
    run s (k + 1) = (run s k).apply e := by
  rw [run, he]
  rfl

/-- An instruction that is not the last one. -/
theorem EndsAfter.cpuExec_next (h : EndsAfter s N) (hk : k + 1 < N) :
    cpuExec 1 ⟨run s k, .STOP⟩ = some ⟨run s (k + 1), .STOP⟩ := by
  obtain ⟨e, he, hstop⟩ := h.step k (by omega)
  have hnone : e.stop = none := by
    rw [← Option.not_isSome_iff_eq_none]
    intro hsome
    have := hstop.mp hsome
    omega
  simp [cpuExec, execute, he, hnone, run_succ he]

/-- The last instruction. -/
theorem EndsAfter.cpuExec_last (h : EndsAfter s N) (hk : k + 1 = N) :
    ∃ st, Ended st ∧ cpuExec 1 ⟨run s k, .STOP⟩ = some ⟨run s N, st⟩ := by
  obtain ⟨e, he, hstop⟩ := h.step k (by omega)
  obtain ⟨stop, hs⟩ := Option.isSome_iff_exists.mp (hstop.mpr hk)
  refine ⟨stop.state, stop.ended_state, ?_⟩
  have hrun : run s N = (run s k).apply e := by rw [← hk, run_succ he]
  cases stop <;> simp [cpuExec, execute, he, hs, hrun, Stop.state]

/-- A batch that is full before the program has ended. -/
theorem EndsAfter.loop_full (h : EndsAfter s N) (hk : k + n < N) (batch : Batch) :
    tracesimLoop n ⟨run s k, .STOP⟩ batch =
      some (⟨run s (k + n), .STOP⟩, batch.append (trace s k n)) := by
  induction n generalizing k batch with
  | zero => rw [trace_zero, Batch.append_empty]; rfl
  | succ n ih =>
      rw [tracesimLoop, h.cpuExec_next (by omega)]
      rw [← trace_succ, ← push_append, show k + (n + 1) = k + 1 + n by omega,
        ← ih (by omega) (batch.push (run s k))]
      rfl

/-- A batch with which the program ends. -/
theorem EndsAfter.loop_last (h : EndsAfter s N) (hk : k < N) (hn : N ≤ k + n) (batch : Batch) :
    ∃ st, Ended st ∧ tracesimLoop n ⟨run s k, .STOP⟩ batch =
      some (⟨run s N, st⟩, batch.append (trace s k (N - k))) := by
  induction n generalizing k batch with
  | zero => omega
  | succ n ih =>
      rw [tracesimLoop, show N - k = N - (k + 1) + 1 by omega, ← trace_succ, ← push_append]
      rcases Nat.lt_or_ge (k + 1) N with hlt | hge
      · rw [h.cpuExec_next hlt]
        exact ih hlt (by omega) (batch.push (run s k))
      · have hlast : k + 1 = N := by omega
        obtain ⟨st, hst, hexec⟩ := h.cpuExec_last hlast
        refine ⟨st, hst, ?_⟩
        rw [hexec, hlast, Nat.sub_self, trace_zero, Batch.append_empty]
        exact if_pos hst

/-- After the end every batch has one instruction, which is not executed. -/
theorem loop_ended {c : CPU} {st : NEMUState} (hst : Ended st) (batch : Batch) :
    tracesimLoop (n + 1) ⟨c, st⟩ batch = some (⟨c, st⟩, batch.push c) := by
  rw [tracesimLoop, cpuExec_of_ended hst]
  exact if_pos hst

/-! ## The loop of the consumer -/

variable {B fuel : ℕ}

/-- A batch that is not full is the last one. -/
theorem drainStream_short {r r' : Ref} {batch : Batch}
    (hstep : difftestTracesimStep B r = some (r', batch)) (hne : batch.i_stream.length ≠ B) :
    drainStream B (fuel + 1) r = some batch := by
  rw [drainStream, hstep]
  exact if_pos hne

/-- A full batch is followed by another one. -/
theorem drainStream_full {r r' : Ref} {batch : Batch}
    (hstep : difftestTracesimStep B r = some (r', batch)) (heq : batch.i_stream.length = B) :
    drainStream B (fuel + 1) r = (drainStream B fuel r').map batch.append := by
  rw [drainStream, hstep]
  simp only [Option.bind_eq_bind, Option.bind_some, heq, ne_eq, not_true_eq_false, if_false]
  cases drainStream B fuel r' <;> rfl

/-- One batch of the program, which goes on or ends with it. -/
theorem EndsAfter.step_full (h : EndsAfter s N) (hk : k + B < N) :
    difftestTracesimStep B ⟨run s k, .STOP⟩ = some (⟨run s (k + B), .STOP⟩, trace s k B) := by
  rw [difftestTracesimStep, h.loop_full hk, Batch.empty_append]

/-- The last step ends with the program, and traces what was left. -/
theorem EndsAfter.step_last (h : EndsAfter s N) (hk : k < N) (hn : N ≤ k + B) :
    ∃ st, Ended st ∧ difftestTracesimStep B ⟨run s k, .STOP⟩ =
      some (⟨run s N, st⟩, trace s k (N - k)) := by
  obtain ⟨st, hst, hloop⟩ := h.loop_last hk hn {}
  refine ⟨st, hst, ?_⟩
  rw [difftestTracesimStep, hloop, Batch.empty_append]

/-- When the last batch is not full, the streams are those of the program. -/
theorem EndsAfter.drain_complete (h : EndsAfter s N) (hB : 1 ≤ B) (hk : k < N)
    (hdvd : ¬ B ∣ N - k) :
    ∃ fuel, drainStream B fuel ⟨run s k, .STOP⟩ = some (trace s k (N - k)) := by
  induction hm : N - k using Nat.strong_induction_on generalizing k with
  | _ m ih =>
      rcases Nat.lt_or_ge (k + B) N with hlt | hge
      · have hrest : ¬ B ∣ N - (k + B) := by
          intro hd
          refine hdvd ?_
          rw [show N - k = N - (k + B) + B by omega]
          exact Nat.dvd_add hd (dvd_refl B)
        obtain ⟨fuel, hdrain⟩ := ih (N - (k + B)) (by omega) hlt hrest rfl
        refine ⟨fuel + 1, ?_⟩
        rw [drainStream_full (h.step_full hlt) (trace_length ..), hdrain, Option.map_some,
          trace_append, show B + (N - (k + B)) = m by omega]
      · obtain ⟨st, -, hstep⟩ := h.step_last hk hge
        refine ⟨1, ?_⟩
        rw [drainStream_short hstep, hm]
        rw [trace_length]
        rintro rfl
        exact hdvd (dvd_refl _)

/-- After the end a batch has an instruction in it. -/
theorem drainStream_ended {c : CPU} {st : NEMUState} (hst : Ended st) (hB : 1 ≤ B) {out : Batch}
    (hout : drainStream B fuel ⟨c, st⟩ = some out) : 0 < out.i_stream.length := by
  cases fuel with
  | zero => cases hout
  | succ fuel =>
      obtain ⟨n, rfl⟩ : ∃ n, B = n + 1 := ⟨B - 1, by omega⟩
      have hstep : difftestTracesimStep (n + 1) ⟨c, st⟩ = some (⟨c, st⟩, Batch.push {} c) :=
        loop_ended hst {}
      by_cases heq : (Batch.push {} c).i_stream.length = n + 1
      · rw [drainStream_full hstep heq] at hout
        obtain ⟨rest, -, rfl⟩ := Option.map_eq_some_iff.mp hout
        rw [Batch.append, List.length_append]
        omega
      · rw [drainStream_short hstep heq] at hout
        cases hout
        exact Nat.one_pos

/-- When the last batch is full, an instruction too many is delivered, if the loop ends at
all. -/
theorem EndsAfter.drain_overrun (h : EndsAfter s N) (hB : 1 ≤ B) (hk : k < N)
    (hdvd : B ∣ N - k) {out : Batch}
    (hout : drainStream B fuel ⟨run s k, .STOP⟩ = some out) : N - k < out.i_stream.length := by
  induction fuel generalizing k out with
  | zero => cases hout
  | succ fuel ih =>
      have hle : B ≤ N - k := Nat.le_of_dvd (by omega) hdvd
      rcases Nat.lt_or_ge (k + B) N with hlt | hge
      · rw [drainStream_full (h.step_full hlt) (trace_length ..)] at hout
        obtain ⟨rest, hrest, rfl⟩ := Option.map_eq_some_iff.mp hout
        have hd : B ∣ N - (k + B) := by
          rw [← Nat.sub_sub]
          exact Nat.dvd_sub hdvd (dvd_refl B)
        have hlen := ih hlt hd hrest
        rw [Batch.append, List.length_append, trace_length]
        omega
      · -- the program ends with a full batch, and one more is asked for
        obtain ⟨st, hst, hstep⟩ := h.step_last hk hge
        rw [drainStream_full hstep (by rw [trace_length]; omega)] at hout
        obtain ⟨rest, hrest, rfl⟩ := Option.map_eq_some_iff.mp hout
        have hpos := drainStream_ended hst hB hrest
        rw [Batch.append, List.length_append, trace_length]
        omega

/-- **The streams are those of the executed instructions**, if and only if the batch size
does not divide their number. -/
theorem complete_iff (h : EndsAfter s N) (hB : 1 ≤ B) : Complete s N B ↔ ¬ B ∣ N := by
  have hpos := h.pos
  constructor
  · rintro ⟨fuel, hout⟩ hdvd
    have hlen := h.drain_overrun (k := 0) hB hpos hdvd hout
    rw [trace_length] at hlen
    omega
  · intro hdvd
    exact h.drain_complete (k := 0) hB hpos hdvd

/-- After the end, batches of one instruction are asked for again and again. -/
theorem drainStream_one_ended {c : CPU} {st : NEMUState} (hst : Ended st) (fuel : ℕ) :
    drainStream 1 fuel ⟨c, st⟩ = none := by
  induction fuel with
  | zero => rfl
  | succ fuel ih =>
      have hstep : difftestTracesimStep 1 ⟨c, st⟩ = some (⟨c, st⟩, Batch.push {} c) :=
        loop_ended hst {}
      rw [drainStream_full hstep rfl, ih]
      rfl

/-- With batches of one instruction the loop never ends. -/
theorem EndsAfter.drainStream_one (h : EndsAfter s N) (hk : k < N) (fuel : ℕ) :
    drainStream 1 fuel ⟨run s k, .STOP⟩ = none := by
  induction fuel generalizing k with
  | zero => rfl
  | succ fuel ih =>
      rcases Nat.lt_or_ge (k + 1) N with hlt | hge
      · rw [drainStream_full (h.step_full hlt) (trace_length ..), ih hlt]
        rfl
      · obtain ⟨st, hst, hstep⟩ := h.step_last hk hge
        rw [drainStream_full hstep (by rw [trace_length]; omega), drainStream_one_ended hst]
        rfl

end Runs

/-! ### A program of two instructions -/

/-- `addi x1, x0, 1` and `ebreak`. -/
def twoInsts : CPU := restart 0x30000000 (ofWords fun a =>
  if a = 0x30000000 then 0x00100093 else 0x00100073)

/-- The program ends after two instructions. -/
theorem twoInsts_endsAfter : EndsAfter twoInsts 2 := by
  refine ⟨by decide, fun k hk => ?_⟩
  interval_cases k
  · exact ⟨_, rfl, by decide⟩
  · exact ⟨_, rfl, by decide⟩

/-- In batches of three it is delivered as it is. -/
theorem twoInsts_complete : Complete twoInsts 2 3 :=
  (complete_iff twoInsts_endsAfter (by decide)).mpr (by decide)

/-- In batches of two the word after the end is delivered, too. -/
theorem twoInsts_not_complete :
    ¬ ∀ (s : CPU) (N B : ℕ), EndsAfter s N → 1 ≤ B → Complete s N B := by
  intro h
  obtain ⟨fuel, hout⟩ := h twoInsts 2 2 twoInsts_endsAfter (by decide)
  have hlen := twoInsts_endsAfter.drain_overrun (k := 0) (by decide) (by decide) (by decide) hout
  rw [trace_length] at hlen
  omega

end Nemu

end Bailuwan
