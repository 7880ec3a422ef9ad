/-
# The fetch stream through the pipeline

The fetches in the fetch unit are linked.  `FrontLinks` extends them by the two registers
in front of the execution stage, so that the stream starts at the next instruction this
stage takes.  `expected` is where that is, and one cycle of it is
`FrontLinks.next`.

The execution stage compares an outcome with its prediction for branches only: an
instruction that is not a branch and comes with a prediction to go elsewhere is a
`StalePrediction`.
-/
import Bailuwan.InFlight

namespace Bailuwan

open Synchronous AXI4

/-- The `pc` an instruction was fetched at, with the prediction. -/
def IDUOut.fetch (o : IDUOut) : Fetch := ⟨o.pc, o.predictTaken, o.predictTarget⟩

namespace Core

variable {c : Core} {io : In} {p : Word}

/-! ## The stream that reaches the execution stage -/

/-- The fetches in the registers in front of the execution stage. -/
def frontFetches (c : Core) : List Fetch :=
  (if c.exuIn.valid then [c.exuIn.bits.fetch] else []) ++
    if c.iduIn.valid then [c.iduIn.bits.fetch] else []

/-- The stream that the execution stage is going to take starts at `p`. -/
def FrontLinks (c : Core) (p : Word) : Prop :=
  Links p (c.frontFetches ++ c.ifu.inflight) c.ifu.pc

/-- Where the stream starts after a cycle. -/
def frontNext (c : Core) (p : Word) : Word :=
  if c.exuFlush || c.wbuFlush then c.redirectTarget
  else if c.exuFire then c.exuIn.bits.fetch.dnpc
  else p

/-- After reset the fetches lead from the reset vector. -/
theorem FrontLinks.of_reset (h : c.IsReset) : FrontLinks c resetVector := by
  simpa [FrontLinks, frontFetches, h.exuIn, h.iduIn] using IFU.links_of_reset h.ifu

/-- What waits at the execution stage is the start of the stream. -/
theorem FrontLinks.exuIn_pc (h : FrontLinks c p) (hv : c.exuIn.valid = true) :
    c.exuIn.bits.pc = p := by
  simp only [FrontLinks, frontFetches, hv, if_true, List.cons_append, List.nil_append,
    links_cons] at h
  exact h.1

/-- EXU redirects when it hands over a branch. -/
theorem exuFire_of_exuFlush (hx : c.exuFlush = true) : c.exuFire = true := by
  simp only [exuFlush, EXU.brMispredict, EXU.validBr, Bool.and_eq_true] at hx
  exact hx.1.1

/-- A redirect leaves no fetch in the front. -/
theorem frontFetches_next_of_redirect (hr : (c.exuFlush || c.wbuFlush) = true) :
    (c.next io).frontFetches = [] := by
  have hidu : (c.next io).iduIn.valid = false := by
    rw [next_iduIn_valid, Bool.or_comm, hr]
    rfl
  have hexu : (c.next io).exuIn.valid = false := by
    rw [next_exuIn_valid]
    cases hf : c.wbuFlush with
    | true => rfl
    | false =>
        rw [hf, Bool.or_false] at hr
        rw [(Bool.and_eq_true_iff.mp (exuFire_of_exuFlush hr)).2, hr]
        rfl
  simp [frontFetches, hexu, hidu]

/-- A decoder that is not ready is delivered nothing. -/
theorem delivers_of_not_ready {i : In} (h : c.iduInReady = false) :
    c.ifu.delivers (c.ifuIn i) = none := by
  have hready : (c.ifuIn i).outReady = false := h
  simp [IFU.delivers, hready]

/-- The decoder takes what is delivered. -/
theorem next_iduIn_fetch {i : In} (hx : c.exuFlush = false) (hf : c.wbuFlush = false) :
    (if (c.next i).iduIn.valid then [(c.next i).iduIn.bits.fetch] else []) =
      if c.iduInReady then ((c.ifu.delivers (c.ifuIn i)).map IFUOut.fetch).toList
      else if c.iduIn.valid then [c.iduIn.bits.fetch] else [] := by
  rw [next_iduIn_valid, hx, hf]
  cases hq : c.iduInReady with
  | false => simp [next_iduIn_of_not_ready hq]
  | true =>
      have hd : c.ifu.delivers (c.ifuIn i) = c.ifu.out (c.ifuIn i) := by
        have hq' : (c.ifuIn i).outReady = true := hq
        simp [IFU.delivers, hq']
      cases ho : c.ifu.out (c.ifuIn i) with
      | none => simp [hd, ho]
      | some o =>
          have hb := next_iduIn_of_delivers (hd.trans ho)
          simp [hd, ho, hb]

/-- The execution stage takes what the decoder holds, unless a hazard stalls it. -/
theorem next_exuIn_fetch {i : In} (hx : c.exuFlush = false) (hf : c.wbuFlush = false) :
    (if (c.next i).exuIn.valid then [(c.next i).exuIn.bits.fetch] else []) =
      if c.lsuInReady then (if c.hazardStall then []
        else if c.iduIn.valid then [c.iduIn.bits.fetch] else [])
      else if c.exuIn.valid then [c.exuIn.bits.fetch] else [] := by
  rw [next_exuIn_valid, hx, hf]
  cases hq : c.lsuInReady with
  | false => simp [next_exuIn_of_not_ready hq]
  | true =>
      cases hs : c.hazardStall with
      | true => simp
      | false =>
          cases hv : c.iduIn.valid with
          | false => simp
          | true =>
              have hb := next_exuIn_of_iduFire (i := i)
                (show c.iduFire = true by simp [iduFire, hq, hs, hv])
              simp [hb, IDUOut.fetch, IFUOut.fetch, IDU.bits]

/-- Without a redirect, what the execution stage takes leaves the front, and what the
fetch unit delivers enters its back. -/
theorem frontFetches_next {i : In} (hr : (c.exuFlush || c.wbuFlush) = false) :
    (if c.exuFire then [c.exuIn.bits.fetch] else []) ++ (c.next i).frontFetches =
      c.frontFetches ++ ((c.ifu.delivers (c.ifuIn i)).map IFUOut.fetch).toList := by
  obtain ⟨hx, hf⟩ := Bool.or_eq_false_iff.mp hr
  rw [frontFetches, next_iduIn_fetch hx hf, next_exuIn_fetch hx hf, frontFetches, exuFire]
  cases hq : c.lsuInReady with
  | false =>
      -- nothing moves
      have hir : c.iduInReady = false := by simp [iduInReady, hq]
      simp [hir, delivers_of_not_ready hir]
  | true =>
      cases hs : c.hazardStall with
      | true =>
          -- the execution stage is emptied and the decoder waits
          have hir : c.iduInReady = false := by simp [iduInReady, hs]
          simp [hir, delivers_of_not_ready hir]
      | false =>
          have hir : c.iduInReady = true := by simp [iduInReady, hs, hq]
          simp [hir]

/-- **One cycle of the stream.** -/
theorem FrontLinks.next {i : In} (h : FrontLinks c p) : FrontLinks (c.next i) (c.frontNext p) := by
  have hred : (c.ifuIn i).redirectValid = (c.exuFlush || c.wbuFlush) := rfl
  have hifu : (c.next i).ifu = c.ifu.next (c.ifuIn i) := rfl
  cases hr : c.exuFlush || c.wbuFlush with
  | true =>
      rw [hr] at hred
      have hpc : (c.ifu.next (c.ifuIn i)).pc = c.redirectTarget := by
        simp only [IFU.next, IFU.dnpc, hred, if_true]
        rfl
      rw [FrontLinks, frontFetches_next_of_redirect hr, hifu, IFU.inflight_next_of_redirect hred,
        hpc, frontNext, hr]
      rfl
  | false =>
      rw [hr] at hred
      have hlong : Links p (c.frontFetches ++ c.ifu.inflight ++
          if c.ifu.reqFire (c.ifuIn i) then [c.ifu.request] else [])
          (c.ifu.next (c.ifuIn i)).pc := IFU.links_request hred h
      rw [List.append_assoc, ← IFU.inflight_next hred, ← List.append_assoc,
        ← frontFetches_next (i := i) hr, List.append_assoc] at hlong
      rw [FrontLinks, hifu, frontNext, hr]
      cases hf : c.exuFire with
      | false => simpa [hf] using hlong
      | true =>
          rw [hf] at hlong
          simpa using hlong.2

/-- Where the stream of the execution stage starts. -/
def expected (r : machine.Run) : ℕ → Word :=
  r.watch resetVector fun p c _ => c.frontNext p

/-- The fetches of the front are linked along a run. -/
theorem frontLinks (r : machine.Run) (t : ℕ) : FrontLinks (r.st t) (expected r t) := by
  induction t with
  | zero => exact FrontLinks.of_reset r.start
  | succ t ih =>
      rw [st_succ]
      exact ih.next

/-! ## Control flow -/

/-- The architectural successor of the instruction at the execution stage. -/
def successor (c : Core) : Word :=
  if EXU.brTaken c.exuIn.bits c.csrRsData then EXU.brTarget c.exuIn.bits
  else c.exuIn.bits.pc + 4

/-- **The statement about control flow**: of two instructions taken one after the other, with
no redirect of write-back in between, the second is the successor of the first. -/
def ControlFlowIntact (r : machine.Run) : Prop :=
  ∀ t u, t < u → (r.st t).exuFire = true → (r.st u).exuFire = true →
    (∀ v, t < v → v < u → (r.st v).exuFire = false) →
    (∀ v, t ≤ v → v < u → (r.st v).wbuFlush = false) →
    (r.st u).exuIn.bits.pc = (r.st t).successor

/-- An instruction that is not a branch is taken with a prediction to go elsewhere. -/
def StalePrediction (c : Core) : Prop :=
  c.exuFire = true ∧ c.exuIn.bits.brOp = .nop ∧ c.exuIn.bits.predictTaken = true ∧
    c.exuIn.bits.predictTarget ≠ c.exuIn.bits.pc + 4

/-- After an instruction is taken, the stream starts at its successor. -/
theorem frontNext_of_exuFire (hfire : c.exuFire = true) (hf : c.wbuFlush = false)
    (hs : ¬ StalePrediction c) : c.frontNext p = c.successor := by
  cases hx : c.exuFlush with
  | true =>
      rw [frontNext, hx, redirectTarget, hf]
      rfl
  | false =>
      rw [frontNext, hx, hf, hfire]
      simp only [Bool.or_self, Bool.false_eq_true, if_false, if_true, Fetch.dnpc, IDUOut.fetch,
        successor]
      by_cases hop : c.exuIn.bits.brOp = .nop
      · have hnt : EXU.brTaken c.exuIn.bits c.csrRsData = false := by simp [EXU.brTaken, hop]
        rw [hnt]
        by_cases hpt : c.exuIn.bits.predictTaken = true
        · have htarget : c.exuIn.bits.predictTarget = c.exuIn.bits.pc + 4 := by
            by_contra hne
            exact hs ⟨hfire, hop, hpt, hne⟩
          simp [hpt, htarget]
        · simp [hpt]
      · -- the prediction of a branch has been compared with its outcome
        simp only [exuFlush, EXU.brMispredict, EXU.validBr, hfire, EXU.predictMismatch, hop,
          ne_eq, not_false_eq_true, decide_true, Bool.and_self, Bool.true_and,
          Bool.or_eq_false_iff, decide_eq_false_iff_not, not_not, Bool.and_eq_false_iff] at hx
        rw [← hx.1]
        by_cases hpt : c.exuIn.bits.predictTaken = true
        · have htarget := hx.2.resolve_left (by simp [hpt])
          simp [hpt, htarget]
        · simp [hpt]

end Core

end Bailuwan
