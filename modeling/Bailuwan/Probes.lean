/-
# What the simulator is told

The execution stage reports the instructions it hands over, and calls `ebreak_handler`
for an `ebreak` among them; write-back reports the instructions that retire.  At that time
one instruction can be ahead of the one handed over (`older`), and if it traps or returns,
or is a `fence.i`, the one handed over is flushed (`flush_iff`).

* `ebreakAtRetirement_iff`: an `ebreak` ends the simulation early exactly when it does so
  behind such an instruction, or with a fetch exception;
* `tracedRetire_iff`: the traced instructions are the retired ones in a run exactly when
  no instruction is handed over behind such an instruction.
-/
import Bailuwan.CsrOrder

namespace Bailuwan

open Synchronous AXI4

namespace Core

variable {c : Core} {io : In} {r : machine.Run} {t : ℕ}

/-- An instruction is handed over behind one that is about to redirect the fetch. -/
def Overruns (c : Core) : Prop := c.exuFire = true ∧ WBU.redirectValid c.older = true

instance : Decidable (Overruns c) := inferInstanceAs (Decidable (_ ∧ _))

/-- An instruction handed over in cycle `t` is in flight then. -/
theorem exu_mem_live (hfire : (r.st t).exuFire = true) :
    (trace r t).exu ∈ live (r.st t) (trace r t) :=
  mem_live_of_back (.inr (List.mem_append_left _ (by simp [(Bool.and_eq_true_iff.mp hfire).1])))

/-- One that overruns is flushed in its cycle or in the next one. -/
theorem Overruns.flush (h : Overruns (r.st t)) :
    (r.st t).wbuFlush = true ∨ (r.st (t + 1)).wbuFlush = true := by
  by_contra hno
  rw [not_or, Bool.not_eq_true, Bool.not_eq_true] at hno
  have hstay := flush_iff.mp hno
  rw [h.2] at hstay
  cases hstay

/-- It is not in flight two cycles later. -/
theorem Overruns.not_live (h : Overruns (r.st t)) :
    (trace r t).exu ∉ live (r.st (t + 2)) (trace r (t + 2)) := by
  intro hlive
  have hlt := lt_of_live (exu_mem_live h.1)
  rcases h.flush with hf | hf
  · have := live_after_wbuFlush hf (by omega) hlive
    omega
  · have := live_after_wbuFlush hf le_rfl hlive
    omega

/-- It never retires. -/
theorem Overruns.not_retired (h : Overruns (r.st t)) {u : ℕ} (hv : (r.st u).wbuIn.valid = true) :
    (trace r u).wbu ≠ (trace r t).exu := by
  intro hname
  have hstay := flush_iff.mp (not_flushed_of_wbu h.1 hv hname)
  rw [h.2] at hstay
  cases hstay

/-! ## The call of `ebreak_handler` -/

/-- `ebreak.io.en`. -/
def ebreakEn (c : Core) : Bool := c.exuFire && decide (c.exuIn.bits.execType = .ebreak)

/-- The instruction for which the simulation is ended in cycle `t` has no fetch exception,
no older instruction in flight goes on to trap or return or is a `fence.i`, and it is not
flushed. -/
structure EbreakRetires (r : machine.Run) (t : ℕ) : Prop where
  noFault : (r.st t).exuIn.bits.exception.valid = false
  last : ∀ u, (r.st u).wbuFlush = true → (trace r u).wbu ∈ live (r.st t) (trace r t) →
    (trace r t).exu ≤ (trace r u).wbu
  stays : ¬ Squashed r (trace r t).exu

/-- **The statement about `ebreak`.** -/
def EbreakAtRetirement (r : machine.Run) : Prop :=
  ∀ t, ebreakEn (r.st t) = true → EbreakRetires r t

/-! ### What the decoder waits for -/

/-- Behind the decoder, no instruction ahead of an `ebreak` writes a register. -/
structure EbreakWaited (c : Core) : Prop where
  lsu : c.exuIn.valid = true → c.exuIn.bits.execType = .ebreak → c.lsuIn.valid = true →
    c.lsuIn.bits.rdWe = false
  wbu : c.exuIn.valid = true → c.exuIn.bits.execType = .ebreak → c.wbuIn.valid = true →
    c.wbuIn.bits.rdWe = false

/-- An `ebreak` leaves the decoder when no later stage is about to write a register. -/
theorem hazards_of_ebreak (hr : c.lsuInReady = true) (hv : (c.next io).exuIn.valid = true)
    (hb : (c.next io).exuIn.bits.execType = .ebreak) :
    ∀ info ∈ c.hazards, info.valid = false := by
  rw [next_exuIn_valid, hr] at hv
  have hidu : c.iduIn.valid = true ∧ c.hazardStall = false := by
    cases hf : c.wbuFlush <;> simp_all
  rw [next_exuIn_of_iduFire (by simp [iduFire, hidu, hr])] at hb
  have hb' : (IDU.decode c.iduIn.bits.inst).execType = .ebreak := hb
  have hstall := hidu.2
  rw [hazardStall, IDU.hazardStall, hidu.1, IDU.waitEbreak, decide_eq_true hb'] at hstall
  simp only [Bool.true_and, Bool.or_eq_false_iff, List.any_eq_false, Bool.not_eq_true] at hstall
  exact hstall.2

/-- A cycle keeps that an `ebreak` has waited for what is ahead of it. -/
theorem EbreakWaited.next (hp : PipelineInv c) (h : EbreakWaited c) : EbreakWaited (c.next io) := by
  cases hr : c.lsuInReady with
  | true =>
      constructor
      · intro hv hb hl
        have hexu : c.exuIn.valid = true := by
          rw [next_lsuIn_valid, hr] at hl
          cases hf : c.wbuFlush <;> simp_all
        have hhaz := hazards_of_ebreak hr hv hb _ (List.mem_cons_self ..)
        rw [next_lsuIn_of_exuFire (by simp [exuFire, hexu, hr])]
        simpa [EXU.hazard, EXU.bits, hexu] using hhaz
      · intro hv hb hw
        rw [next_wbuIn_valid, Bool.and_eq_true, decide_eq_true_eq] at hw
        have hhaz := hazards_of_ebreak hr hv hb (c.lsu.hazard c.lsuIn) (by simp [hazards])
        rw [next_wbuIn_bits hw.2]
        simpa [LSU.hazard, LSU.bits, hp.held (by simp [hw.2])] using hhaz
  | false =>
      constructor
      · intro hv hb hl
        rw [next_exuIn_valid, hr] at hv
        rw [next_lsuIn_valid, hr] at hl
        rw [next_exuIn_of_not_ready hr] at hb
        rw [next_lsuIn_of_not_ready hr]
        cases hf : c.wbuFlush
        · exact h.lsu (by simpa [hf] using hv) hb (by simpa [hf] using hl)
        · simp [hf] at hv
      · -- nothing leaves a unit that is not ready
        intro hv hb hw
        rw [next_wbuIn_valid, Bool.and_eq_true, decide_eq_true_eq] at hw
        rw [lsuInReady, LSU.inReady_of_waitReady hw.2] at hr
        cases hr

/-- So it has in every run. -/
theorem ebreakWaited (r : machine.Run) (t : ℕ) : EbreakWaited (r.st t) := by
  induction t with
  | zero => exact ⟨fun h => by simp [r.start.exuIn] at h, fun h => by simp [r.start.exuIn] at h⟩
  | succ t ih =>
      rw [st_succ]
      exact ih.next (pipelineInv r t)

/-- The instruction ahead of an `ebreak` writes no register: it is a branch, a store,
`ecall`, `ebreak`, `mret` or `fence.i`. -/
theorem older_of_ebreakEn (h : ebreakEn (r.st t) = true) (hv : (r.st t).older.valid = true) :
    (r.st t).older.bits.rdWe = false := by
  obtain ⟨hfire, hb⟩ := Bool.and_eq_true_iff.mp h
  have hexu := (Bool.and_eq_true_iff.mp hfire).1
  have hw := ebreakWaited r t
  unfold older at hv ⊢
  split_ifs at hv ⊢ with hwbu
  · exact hw.wbu hexu (of_decide_eq_true hb) hwbu
  · have hs : (r.st t).lsu.state = .waitReady := of_decide_eq_true hv
    exact hw.lsu hexu (of_decide_eq_true hb) ((pipelineInv r t).held (by simp [hs]))

/-! ### When the statement holds -/

/-- The call comes too early: with a fetch exception, or behind an instruction that is
about to redirect the fetch. -/
def EarlyEbreak (c : Core) : Prop :=
  ebreakEn c = true ∧ (c.exuIn.bits.exception.valid = true ∨ WBU.redirectValid c.older = true)

instance : Decidable (EarlyEbreak c) := inferInstanceAs (Decidable (_ ∧ _))

/-- In the cycle of the flush, the instruction that redirects is one ahead in flight. -/
theorem Overruns.flusher (h : Overruns (r.st t)) : ∃ u, (r.st u).wbuFlush = true ∧
    (trace r u).wbu ∈ live (r.st t) (trace r t) ∧ (trace r u).wbu < (trace r t).exu := by
  have hexu : (trace r t).exu ∈ front (r.st t) (trace r t) :=
    List.mem_append_left _ (by simp [(Bool.and_eq_true_iff.mp h.1).1])
  have hsorted := (inOrder r t).sorted
  rw [live, List.pairwise_append, List.pairwise_append] at hsorted
  cases hf : (r.st t).wbuFlush with
  | true =>
      have hwbu : (trace r t).wbu ∈ name (r.st t).wbuIn (trace r t).wbu := by
        simp [(Bool.and_eq_true_iff.mp hf).1]
      exact ⟨t, hf, List.mem_append_left _ hwbu,
        hsorted.2.2 _ hwbu _ (List.mem_append_right _ hexu)⟩
  | false =>
      have hf' : (r.st (t + 1)).wbuFlush = true := by
        rcases h.flush with hnow | hnext
        · rw [hf] at hnow
          cases hnow
        · exact hnext
      have hv : (r.st (t + 1)).wbuIn.valid = true := (Bool.and_eq_true_iff.mp hf').1
      have hname : (trace r (t + 1)).wbu ∈ name (r.st t).lsuIn (trace r t).lsu := by
        have hin : (trace r (t + 1)).wbu ∈ name (r.st (t + 1)).wbuIn (trace r (t + 1)).wbu := by
          simp [hv]
        rw [st_succ, trace_succ, next_wbuIn_name (pipelineInv r t) hf] at hin
        split_ifs at hin
        · exact hin
        · cases hin
      exact ⟨t + 1, hf', mem_live_of_back (.inl hname), hsorted.2.1.2.2 _ hname _ hexu⟩

/-- Behind an instruction that does not overrun, whatever redirects is not older. -/
theorem le_wbu_of_flush (hfire : (r.st t).exuFire = true)
    (hstay : WBU.redirectValid (r.st t).older = false) {u : ℕ} (hu : t ≤ u)
    (hf : (r.st u).wbuFlush = true) : (trace r t).exu ≤ (trace r u).wbu := by
  obtain ⟨hf0, hf1⟩ := flush_iff.mpr hstay
  obtain ⟨hv1, hn1⟩ := handed_over hfire hf0
  have hge : t + 2 ≤ u := by
    by_contra hlt
    obtain rfl | rfl : u = t ∨ u = t + 1 := by omega
    · rw [hf0] at hf
      cases hf
    · rw [hf1] at hf
      cases hf
  have hlsu : (trace r t).exu ∈ name (r.st (t + 1)).lsuIn (trace r (t + 1)).lsu := by
    simp [hv1, hn1]
  have hwbu : (trace r u).wbu ∈ name (r.st u).wbuIn (trace r u).wbu := by
    simp [(Bool.and_eq_true_iff.mp hf).1]
  exact (live_ge (.inr hlsu) hge).2 _ (List.mem_append_left _ hwbu)

/-- What is handed on without a redirect from an older instruction is not squashed. -/
theorem not_squashed_of_stays (hfire : (r.st t).exuFire = true)
    (hstay : WBU.redirectValid (r.st t).older = false) : ¬ Squashed r (trace r t).exu := by
  obtain ⟨hf0, -⟩ := flush_iff.mpr hstay
  obtain ⟨hv1, hn1⟩ := handed_over hfire hf0
  have hlive := exu_mem_live hfire
  have hpast : Past (r := r) (t + 1) (trace r t).exu := by
    have hlsu : (trace r t).exu ∈ name (r.st (t + 1)).lsuIn (trace r (t + 1)).lsu := by
      simp [hv1, hn1]
    have hin := inOrder r (t + 1)
    have hsorted := hin.sorted
    rw [live, List.pairwise_append, List.pairwise_append] at hsorted
    exact ⟨hin.issued _ (mem_live_of_back (.inl hlsu)), hsorted.2.1.2.2 _ hlsu⟩
  rintro ⟨u, heu, ⟨hf, hlt⟩ | ⟨hx, hlt⟩⟩
  · rcases Nat.lt_or_ge u t with hut | hut
    · have := live_after_wbuFlush hf hut hlive
      omega
    · have := le_wbu_of_flush hfire hstay hut hf
      omega
  · have hexu : (trace r u).exu ∈ front (r.st u) (trace r u) := by
      simp only [exuFlush, EXU.brMispredict, EXU.validBr, Bool.and_eq_true] at hx
      exact List.mem_append_left _ (by simp [(Bool.and_eq_true_iff.mp hx.1.1).1])
    rcases lt_trichotomy u t with hut | rfl | hut
    · have := live_after_exuFlush hx hut hlive
      omega
    · omega
    · have := (hpast.mono hut).2 _ hexu
      omega

/-- An `ebreak` that is seen too early is not seen at its retirement. -/
theorem EarlyEbreak.not_atRetirement (h : EarlyEbreak (r.st t)) : ¬ EbreakAtRetirement r := by
  intro hall
  have hret := hall t h.1
  rcases h.2 with hfault | hredirect
  · rw [hret.noFault] at hfault
    cases hfault
  · have hfire : (r.st t).exuFire = true := (Bool.and_eq_true_iff.mp h.1).1
    obtain ⟨u, hf, hlive, hlt⟩ := Overruns.flusher ⟨hfire, hredirect⟩
    exact absurd (hret.last u hf hlive) (by omega)

/-- **`ebreak`** ends the simulation only as it retires, in a run in which no `ebreak` is
handed over with a fetch exception or behind an instruction that is about to redirect the
fetch, and in no other run. -/
theorem ebreakAtRetirement_iff (r : machine.Run) :
    EbreakAtRetirement r ↔ ∀ t, ¬ EarlyEbreak (r.st t) := by
  refine ⟨fun h t hearly => hearly.not_atRetirement h, fun h t hen => ?_⟩
  have hfire : (r.st t).exuFire = true := (Bool.and_eq_true_iff.mp hen).1
  have hno : ¬ ((r.st t).exuIn.bits.exception.valid = true ∨
      WBU.redirectValid (r.st t).older = true) := fun hor => h t ⟨hen, hor⟩
  rw [not_or, Bool.not_eq_true, Bool.not_eq_true] at hno
  refine ⟨hno.1, fun u hf hlive => ?_, not_squashed_of_stays hfire hno.2⟩
  rcases Nat.lt_or_ge u t with hut | hut
  · have hwbu : (trace r u).wbu ∈ name (r.st u).wbuIn (trace r u).wbu := by
      simp [(Bool.and_eq_true_iff.mp hf).1]
    exact absurd (live_gt_of_wbu hwbu hut _ hlive) (lt_irrefl _)
  · exact le_wbu_of_flush hfire hno.2 hut hf

/-- `ecall; ebreak`, with the trap vector at address 0. -/
def ecallThenEbreak (a : Word) : Word :=
  if a = 0x30000000 then 0x00000073
  else if a = 0x30000004 then 0x00100073
  else 0x00000013

set_option maxRecDepth 100000 in
/-- The simulation ends before the trap handler is reached. -/
theorem ecallThenEbreak_not_atRetirement :
    ¬ EbreakAtRetirement (onMemory (ofWords ecallThenEbreak)) :=
  EarlyEbreak.not_atRetirement (t := 13) (onMemory_check (by decide +kernel))

/-! ## The traced instructions -/

/-- An instruction as it is reported: with its `pc` and its word. -/
structure Report where
  name : ℕ
  pc : Word
  inst : Word
  deriving DecidableEq, Repr

/-- `exu_inst_trace_ready`. -/
def exuReport (c : Core) (g : Trace) : List Report :=
  if c.exuFire then [⟨g.exu, c.exuIn.bits.pc, c.exuIn.bits.inst⟩] else []

/-- `difftest_ready`, a cycle earlier. -/
def wbuReport (c : Core) (g : Trace) : List Report :=
  if c.wbuIn.valid then [⟨g.wbu, c.wbuIn.bits.pc, c.wbuIn.bits.inst⟩] else []

/-- The instruction the load and store unit holds. -/
def lsuReport (c : Core) (g : Trace) : List Report :=
  if c.lsuIn.valid then [⟨g.lsu, c.lsuIn.bits.pc, c.lsuIn.bits.inst⟩] else []

/-- The instructions behind the execution stage. -/
def inFlight (c : Core) (g : Trace) : List Report := wbuReport c g ++ lsuReport c g

/-- The reports before cycle `t`. -/
def exuReports (r : machine.Run) (t : ℕ) : List Report :=
  (List.range t).flatMap fun u => exuReport (r.st u) (trace r u)

/-- The reports of WBU in the cycles before `t`. -/
def wbuReports (r : machine.Run) (t : ℕ) : List Report :=
  (List.range t).flatMap fun u => wbuReport (r.st u) (trace r u)

/-- **The statement about the trace**: the traced instructions are the retired ones, and
those that are still in flight. -/
def TracedRetire (r : machine.Run) : Prop :=
  ∀ t, exuReports r t = wbuReports r t ++ inFlight (r.st t) (trace r t)

/-- The reports of the execution unit after another cycle. -/
theorem exuReports_succ :
    exuReports r (t + 1) = exuReports r t ++ exuReport (r.st t) (trace r t) := by
  simp [exuReports, List.range_succ]

/-- The reports of the write back stage after another cycle. -/
theorem wbuReports_succ :
    wbuReports r (t + 1) = wbuReports r t ++ wbuReport (r.st t) (trace r t) := by
  simp [wbuReports, List.range_succ]

/-- What leaves the load and store unit is reported in the next cycle. -/
theorem wbuReport_next {g : Trace} (hp : PipelineInv c) (hf : c.wbuFlush = false) :
    wbuReport (c.next io) (g.next c io) =
      if c.lsu.state = .waitReady then lsuReport c g else [] := by
  rw [wbuReport, next_wbuIn_valid, hf]
  by_cases hs : c.lsu.state = .waitReady
  · rw [next_wbuIn_bits hs, lsuReport, hp.held (by simp [hs])]
    simp [hs, Trace.next, LSU.outValid_eq, LSU.bits]
  · simp [hs]

/-- What it holds is what left the execution unit. -/
theorem lsuReport_next {g : Trace} (hf : c.wbuFlush = false) :
    lsuReport (c.next io) (g.next c io) =
      if c.lsuInReady then exuReport c g else lsuReport c g := by
  rw [lsuReport, next_lsuIn_valid, hf]
  cases hr : c.lsuInReady with
  | true =>
      cases hv : c.exuIn.valid with
      | true =>
          have hfire : c.exuFire = true := by simp [exuFire, hv, hr]
          rw [next_lsuIn_of_exuFire hfire]
          simp [exuReport, hfire, Trace.next, EXU.bits]
      | false => simp [exuReport, exuFire, hv]
  | false =>
      rw [next_lsuIn_of_not_ready hr]
      simp [lsuReport, Trace.next, exuFire, hr]

/-- **The reports move in order**, in a cycle without flush. -/
theorem inFlight_next {g : Trace} (hp : PipelineInv c) (hf : c.wbuFlush = false) :
    wbuReport c g ++ inFlight (c.next io) (g.next c io) = inFlight c g ++ exuReport c g := by
  rw [inFlight, inFlight, wbuReport_next hp hf, lsuReport_next hf]
  by_cases hs : c.lsu.state = .waitReady
  · have hr : c.lsuInReady = true := LSU.inReady_of_waitReady hs
    simp [hs, hr]
  · rw [if_neg hs, List.nil_append]
    cases hr : c.lsuInReady with
    | true =>
        -- the unit is ready because it holds nothing
        have hv : c.lsuIn.valid = false := by
          simpa [lsuInReady, LSU.inReady, hs] using (Bool.and_eq_true_iff.mp
            (show (decide (c.lsu.state = .idle) && !c.lsuIn.valid) = true by
              simpa [lsuInReady, LSU.inReady, hs] using hr)).2
        simp [lsuReport, hv]
    | false => simp [exuReport, exuFire, hr]

/-- In a run where nothing overruns, a flush finds only its cause behind the execution
stage. -/
theorem lsuIn_of_wbuFlush (h : ∀ u, ¬ Overruns (r.st u)) (hf : (r.st t).wbuFlush = true) :
    (r.st t).lsuIn.valid = false := by
  have hv : (r.st t).wbuIn.valid = true := (Bool.and_eq_true_iff.mp hf).1
  cases t with
  | zero => simp [r.start.wbuIn] at hv
  | succ t =>
      rw [st_succ, next_wbuIn_valid, Bool.and_eq_true, decide_eq_true_eq,
        Bool.not_eq_true'] at hv
      obtain ⟨hf0, hs⟩ := hv
      have hr : (r.st t).lsuInReady = true := LSU.inReady_of_waitReady hs
      have hw : (r.st t).wbuIn.valid = false := by
        by_contra hw
        rw [(pipelineInv r t).drained (by simpa using hw)] at hs
        cases hs
      by_contra hl
      rw [st_succ, next_lsuIn_valid, hf0, hr] at hl
      have hfire : (r.st t).exuFire = true := by simpa [exuFire, hr] using hl
      have hstay : ¬ WBU.redirectValid (r.st t).older = true := fun hred => h t ⟨hfire, hred⟩
      rw [Bool.not_eq_true] at hstay
      rw [(flush_iff.mpr hstay).2] at hf
      cases hf

/-- Where nothing overruns, what is traced is what retires. -/
theorem traced_of_not_overruns (h : ∀ u, ¬ Overruns (r.st u)) : TracedRetire r := by
  intro t
  induction t with
  | zero =>
      simp [exuReports, wbuReports, inFlight, wbuReport, lsuReport, r.start.wbuIn, r.start.lsuIn]
  | succ t ih =>
      rw [exuReports_succ, wbuReports_succ, ih, List.append_assoc, List.append_assoc]
      congr 1
      cases hf : (r.st t).wbuFlush with
      | false =>
          rw [st_succ, trace_succ]
          exact (inFlight_next (pipelineInv r t) hf).symm
      | true =>
          have hl := lsuIn_of_wbuFlush h hf
          have hx : (r.st t).exuFire = false := by
            by_contra hx
            have hold : (r.st t).older = (r.st t).wbuIn := by
              simp [older, (Bool.and_eq_true_iff.mp hf).1]
            refine h t ⟨by simpa using hx, ?_⟩
            rw [hold]
            exact hf
          have hempty : inFlight (r.st (t + 1)) (trace r (t + 1)) = [] := by
            simp [inFlight, wbuReport, lsuReport, st_succ, next_wbuIn_valid, next_lsuIn_valid, hf]
          rw [hempty]
          simp [inFlight, lsuReport, exuReport, hl, hx]

/-- An instruction that overruns is traced, and never retires. -/
theorem Overruns.not_tracedRetire (h : Overruns (r.st t)) : ¬ TracedRetire r := by
  intro hall
  have htraced : (⟨(trace r t).exu, (r.st t).exuIn.bits.pc, (r.st t).exuIn.bits.inst⟩ : Report) ∈
      exuReports r (t + 2) :=
    List.mem_flatMap.mpr ⟨t, by simp, by simp [exuReport, h.1]⟩
  rw [hall (t + 2), inFlight, List.mem_append, List.mem_append] at htraced
  rcases htraced with hret | hwbu | hlsu
  · obtain ⟨u, -, hu⟩ := List.mem_flatMap.mp hret
    unfold wbuReport at hu
    split_ifs at hu with hv
    · rw [List.mem_singleton, Report.mk.injEq] at hu
      exact h.not_retired hv hu.1.symm
    · cases hu
  · unfold wbuReport at hwbu
    split_ifs at hwbu with hv
    · rw [List.mem_singleton, Report.mk.injEq] at hwbu
      exact h.not_retired hv hwbu.1.symm
    · cases hwbu
  · unfold lsuReport at hlsu
    split_ifs at hlsu with hv
    · rw [List.mem_singleton, Report.mk.injEq] at hlsu
      exact h.not_live (mem_live_of_back (.inl (by simp [hv, hlsu.1])))
    · cases hlsu

/-- **The traced instructions are the retired ones** in a run if and only if no
instruction is handed over behind one that is about to redirect the fetch. -/
theorem tracedRetire_iff (r : machine.Run) : TracedRetire r ↔ ∀ t, ¬ Overruns (r.st t) :=
  ⟨fun h _ hover => hover.not_tracedRetire h, traced_of_not_overruns⟩

/-- `fence.i`, with nothing around it that traps. -/
def fenceIThenAddi (a : Word) : Word := if a = 0x30000000 then 0x0000100f else 0x00000013

set_option maxRecDepth 100000 in
/-- The instruction behind `fence.i` is traced and flushed, and is traced again later. -/
theorem fenceIThenAddi_not_tracedRetire :
    ¬ TracedRetire (onMemory (ofWords fenceIThenAddi)) :=
  Overruns.not_tracedRetire (t := 13) (onMemory_check (by decide +kernel))

end Core

end Bailuwan
