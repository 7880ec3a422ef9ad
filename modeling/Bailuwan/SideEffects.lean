/-
# Side effects are not speculative

An instruction acts on the outside when the load and store unit drives a request for
it, or when write-back writes the register file or the CSR file for it.  No instruction
does so that is squashed, in whatever cycle the squash comes, and none that entered
the load and store unit with an exception.
-/
import Bailuwan.InFlight

namespace Bailuwan

open Synchronous AXI4

namespace Core

variable (r : machine.Run)

/-! ## The statement -/

/-- The load and store unit drives a request. -/
def Requests (c : Core) : Prop :=
  (c.lsu.memOut c.lsuIn).ar.valid = true ∨ (c.lsu.memOut c.lsuIn).aw.valid = true ∨
    (c.lsu.memOut c.lsuIn).w.valid = true

/-- Write-back writes the register file, or an instruction of the program the CSR file. -/
def Writes (c : Core) : Prop := WBU.rdWe c.wbuIn = true ∨ WBU.csrRdWe c.wbuIn = true

/-- In cycle `t` the instruction `e` has a side effect. -/
def Acts (t e : ℕ) : Prop :=
  (Requests (r.st t) ∧ e = (trace r t).lsu) ∨ (Writes (r.st t) ∧ e = (trace r t).wbu)

/-- The instruction `e`, requested by the end of cycle `t`, is younger than one that
redirects the fetch in cycle `t`: by its retirement, or by a mispredicted branch. -/
def Squashed (e : ℕ) : Prop :=
  ∃ t, e ≤ t ∧ (((r.st t).wbuFlush = true ∧ (trace r t).wbu < e) ∨
    ((r.st t).exuFlush = true ∧ (trace r t).exu < e))

/-- The instruction `e` enters the load and store unit with an exception. -/
def EntersExcepted (e : ℕ) : Prop :=
  ∃ t, (r.st t).exuFire = true ∧ (trace r t).exu = e ∧
    (EXU.bits (r.st t).exuIn.bits (r.st t).csrRsData).exception.valid = true

variable {r}

/-! ## Redirects and names -/

/-- The clock of the trace is the cycle. -/
theorem trace_now (t : ℕ) : (trace r t).fetch.now = t := by
  induction t with
  | zero => rfl
  | succ t ih =>
      rw [trace_succ]
      simp only [Trace.next, IFU.FetchLog.next_now, ih]

/-- After a redirect the stream is younger than it. -/
theorem since_of_redirect {t u : ℕ}
    (hr : ((r.st t).ifuIn (r.inp t)).redirectValid = true) (hu : t + 1 ≤ u) :
    t < (trace r u).fetch.since := by
  induction u, hu using Nat.le_induction with
  | base =>
      rw [trace_succ]
      simp [Trace.next, IFU.FetchLog.next_since, hr, trace_now]
  | succ u _ ih =>
      rw [trace_succ]
      simp only [Trace.next, IFU.FetchLog.next_since, trace_now]
      split_ifs
      · omega
      · exact ih

/-- What is fetched after a redirect is younger than it. -/
theorem fresh_of_redirect {t u n : ℕ}
    (hr : ((r.st t).ifuIn (r.inp t)).redirectValid = true) (hu : t + 1 ≤ u)
    (hn : n ∈ (trace r u).fresh (r.st u) (r.inp u)) : t < n :=
  lt_of_lt_of_le (since_of_redirect hr hu) ((inOrder r u).since_le_fresh hn).1

/-- What is in flight in the next cycle. -/
theorem mem_live_succ {t e : ℕ} (he : e ∈ live (r.st (t + 1)) (trace r (t + 1))) :
    e ∈ name (r.st t).lsuIn (trace r t).lsu ∨ e ∈ front (r.st t) (trace r t) ∨
      e ∈ (trace r t).fresh (r.st t) (r.inp t) := by
  rw [st_succ, trace_succ] at he
  have hmem := (live_next (pipelineInv r t)).subset he
  simpa [List.mem_append] using hmem

/-- What is in the load and store unit or ahead of it is live. -/
theorem mem_live_of_back {t e : ℕ} (he : e ∈ name (r.st t).lsuIn (trace r t).lsu ∨
    e ∈ front (r.st t) (trace r t)) : e ∈ live (r.st t) (trace r t) :=
  List.mem_append_right _ (List.mem_append.mpr he)

/-! ## Squashed instructions leave the pipeline -/

/-- After a flush of write-back only younger instructions are in flight. -/
theorem live_after_wbuFlush {t u e : ℕ} (hf : (r.st t).wbuFlush = true) (hu : t + 1 ≤ u)
    (he : e ∈ live (r.st u) (trace r u)) : t < e := by
  have hr : ((r.st t).ifuIn (r.inp t)).redirectValid = true := by simp [ifuIn, hf]
  induction u, hu using Nat.le_induction with
  | base =>
      rw [st_succ, trace_succ] at he
      have hnil := live_of_wbuFlush (g := trace r t) (i := r.inp t) hf
      rw [hnil] at he
      simp at he
  | succ u hu ih =>
      rcases mem_live_succ he with he | he | he
      · exact ih (mem_live_of_back (.inl he))
      · exact ih (mem_live_of_back (.inr he))
      · exact fresh_of_redirect hr hu he

/-- After a flush of the execution stage, what is in flight is not younger than the
branch, or is younger than the flush. -/
theorem live_after_exuFlush {t u e : ℕ} (hx : (r.st t).exuFlush = true) (hu : t + 1 ≤ u)
    (he : e ∈ live (r.st u) (trace r u)) : e ≤ (trace r t).exu ∨ t < e := by
  have hr : ((r.st t).ifuIn (r.inp t)).redirectValid = true := by simp [ifuIn, hx]
  induction u, hu using Nat.le_induction with
  | base =>
      have hfire : (r.st t).exuFire = true := by
        simp only [exuFlush, EXU.brMispredict, EXU.validBr, Bool.and_eq_true] at hx
        exact hx.1.1
      have hv : (r.st t).exuIn.valid = true := (Bool.and_eq_true_iff.mp hfire).1
      have hsorted := (inOrder r t).sorted
      have hexu : (trace r t).exu ∈ name (r.st t).exuIn (trace r t).exu := by simp [hv]
      rw [st_succ, trace_succ] at he
      rcases List.mem_append.mp he with he | he
      · -- write-back gets what was in the load and store unit
        refine .inl ?_
        cases hf : (r.st t).wbuFlush with
        | true =>
            rw [name,
              next_wbuIn_valid, hf] at he
            simp at he
        | false =>
            rw [next_wbuIn_name (pipelineInv r t) hf] at he
            have hin : e ∈ name (r.st t).lsuIn (trace r t).lsu := by
              split_ifs at he
              · exact he
              · simp at he
            rw [live, List.pairwise_append, List.pairwise_append] at hsorted
            exact (hsorted.2.1.2.2 e hin _ (List.mem_append_left _ hexu)).le
      · rcases List.mem_append.mp he with he | he
        · -- the load and store unit gets the branch
          refine .inl ?_
          cases hf : (r.st t).wbuFlush with
          | true =>
              rw [name,
                next_lsuIn_valid, hf] at he
              simp at he
          | false =>
              rw [next_lsuIn_name hf, (Bool.and_eq_true_iff.mp hfire).2] at he
              exact (mem_name.mp he).2.le
        · rw [front_of_exuFlush hx] at he
          simp at he
  | succ u hu ih =>
      rcases mem_live_succ he with he | he | he
      · exact ih (mem_live_of_back (.inl he))
      · exact ih (mem_live_of_back (.inr he))
      · exact .inr (fresh_of_redirect hr hu he)

/-! ## No overtaking -/

/-- The instruction `e` has been handed over and is not in front of the execution stage:
everything there is younger. -/
def Past (t e : ℕ) : Prop := e ∈ (trace r t).issued ∧ ∀ n ∈ front (r.st t) (trace r t), e < n

/-- What has been issued has been issued. -/
theorem issued_succ {t e : ℕ} (he : e ∈ (trace r t).issued) : e ∈ (trace r (t + 1)).issued := by
  rw [trace_succ]
  exact List.mem_append_left _ he

/-- What is past stays past in the next cycle. -/
theorem Past.succ {t e : ℕ} (h : Past (r := r) t e) : Past (r := r) (t + 1) e := by
  refine ⟨issued_succ h.1, fun n hn => ?_⟩
  rw [st_succ, trace_succ] at hn
  rcases front_next n hn with hn | hn
  · exact h.2 n hn
  · exact (inOrder r t).issued_lt_fresh h.1 hn

/-- What is past stays past in every later cycle. -/
theorem Past.mono {t u e : ℕ} (h : Past (r := r) t e) (hu : t ≤ u) : Past (r := r) u e := by
  induction u, hu using Nat.le_induction with
  | base => exact h
  | succ u _ ih => exact ih.succ

/-- Once `e` is in the last two registers, nothing older than `e` is in flight later. -/
theorem live_ge {t u e : ℕ} (he : e ∈ name (r.st t).wbuIn (trace r t).wbu ∨
    e ∈ name (r.st t).lsuIn (trace r t).lsu) (hu : t + 1 ≤ u) :
    e ∈ (trace r u).issued ∧ ∀ n ∈ live (r.st u) (trace r u), e ≤ n := by
  have hin := inOrder r t
  have hissued : e ∈ (trace r t).issued := by
    refine hin.issued e ?_
    rcases he with he | he
    · exact List.mem_append_left _ he
    · exact mem_live_of_back (.inl he)
  have hsorted := hin.sorted
  rw [live, List.pairwise_append, List.pairwise_append] at hsorted
  induction u, hu using Nat.le_induction with
  | base =>
      refine ⟨issued_succ hissued, fun n hn => ?_⟩
      rcases mem_live_succ hn with hn | hn | hn
      · rcases he with he | he
        · exact (hsorted.2.2 e he n (List.mem_append_left _ hn)).le
        · rw [(mem_name.mp he).2, (mem_name.mp hn).2]
      · rcases he with he | he
        · exact (hsorted.2.2 e he n (List.mem_append_right _ hn)).le
        · exact (hsorted.2.1.2.2 e he n hn).le
      · exact (hin.issued_lt_fresh hissued hn).le
  | succ u _ ih =>
      refine ⟨issued_succ ih.1, fun n hn => ?_⟩
      rcases mem_live_succ hn with hn | hn | hn
      · exact ih.2 n (mem_live_of_back (.inl hn))
      · exact ih.2 n (mem_live_of_back (.inr hn))
      · exact ((inOrder r u).issued_lt_fresh ih.1 hn).le

/-! ## Who acts -/

/-- The unit asks in these states only. -/
theorem state_of_requests {c : Core} (h : Requests c) :
    c.lsu.state = .rAddr ∨ c.lsu.state = .wAddr ∨ c.lsu.state = .wData := by
  simp only [Requests, LSU.memOut, Bool.or_eq_true, decide_eq_true_eq] at h
  tauto

/-- Whoever acts is in one of the last two registers. -/
theorem Acts.mem {t e : ℕ} (h : Acts r t e) :
    e ∈ name (r.st t).wbuIn (trace r t).wbu ∨ e ∈ name (r.st t).lsuIn (trace r t).lsu := by
  rcases h with ⟨hreq, rfl⟩ | ⟨hw, rfl⟩
  · right
    have hne : (r.st t).lsu.state ≠ .idle := by
      rcases state_of_requests hreq with h | h | h <;> simp [h]
    simp [(pipelineInv r t).held hne]
  · left
    simp only [Writes, WBU.rdWe, WBU.csrRdWe, Bool.and_eq_true] at hw
    rcases hw with hw | hw <;> simp [hw.1.1]

/-- What acts is past the execution unit. -/
theorem Acts.past {t e : ℕ} (h : Acts r t e) : Past (r := r) t e := by
  have hin := inOrder r t
  have hsorted := hin.sorted
  rw [live, List.pairwise_append, List.pairwise_append] at hsorted
  rcases h.mem with he | he
  · exact ⟨hin.issued e (List.mem_append_left _ he),
      fun n hn => hsorted.2.2 e he n (List.mem_append_right _ hn)⟩
  · exact ⟨hin.issued e (mem_live_of_back (.inl he)), fun n hn => hsorted.2.1.2.2 e he n hn⟩

/-- What acts is live. -/
theorem Acts.live {t e : ℕ} (h : Acts r t e) : e ∈ live (r.st t) (trace r t) := by
  rcases h.mem with he | he
  · exact List.mem_append_left _ he
  · exact mem_live_of_back (.inl he)

/-- A squashed instruction never acts, before or after it is squashed. -/
theorem Acts.not_squashed {t e : ℕ} (h : Acts r t e) : ¬ Squashed r e := by
  rintro ⟨u, heu, ⟨hf, hlt⟩ | ⟨hx, hlt⟩⟩
  · have hv : (r.st u).wbuIn.valid = true := by
      simp only [wbuFlush, WBU.redirectValid, Bool.and_eq_true] at hf
      exact hf.1
    have hwbu : (trace r u).wbu ∈ Core.live (r.st u) (trace r u) :=
      List.mem_append_left _ (by simp [hv])
    rcases lt_trichotomy t u with htu | rfl | htu
    · have hge := (live_ge h.mem htu).2 _ hwbu
      omega
    · -- in the cycle of the flush the unit is idle, and write-back holds the cause
      rcases h with ⟨hreq, -⟩ | ⟨-, rfl⟩
      · have hidle := (pipelineInv r t).idle_of_wbuFlush hf
        rcases state_of_requests hreq with h | h | h <;> simp [hidle] at h
      · omega
    · have hgt := live_after_wbuFlush hf htu h.live
      omega
  · have hfire : (r.st u).exuFire = true := by
      simp only [exuFlush, EXU.brMispredict, EXU.validBr, Bool.and_eq_true] at hx
      exact hx.1.1
    have hexu : (trace r u).exu ∈ front (r.st u) (trace r u) :=
      List.mem_append_left _ (by simp [(Bool.and_eq_true_iff.mp hfire).1])
    rcases Nat.lt_or_ge u t with htu | htu
    · have hgt := live_after_exuFlush hx htu h.live
      omega
    · have hgt := (h.past.mono htu).2 _ hexu
      omega

/-! ## Exceptions -/

/-- In `t` the instruction `e` is behind the execution stage, and where it is it has an
exception. -/
structure Excepted (r : machine.Run) (t e : ℕ) : Prop where
  past : Past (r := r) t e
  lsu : (r.st t).lsuIn.valid = true → (trace r t).lsu = e →
    (r.st t).lsuIn.bits.exception.valid = true
  wbu : (r.st t).wbuIn.valid = true → (trace r t).wbu = e →
    (r.st t).wbuIn.bits.exception.valid = true

/-- What the execution stage hands over with an exception has it. -/
theorem Excepted.of_exuFire {t : ℕ} (hfire : (r.st t).exuFire = true)
    (hexc : (EXU.bits (r.st t).exuIn.bits (r.st t).csrRsData).exception.valid = true) :
    Excepted r (t + 1) (trace r t).exu := by
  have hv : (r.st t).exuIn.valid = true := (Bool.and_eq_true_iff.mp hfire).1
  have hin := inOrder r t
  have hsorted := hin.sorted
  rw [live, List.pairwise_append, List.pairwise_append, front, List.pairwise_append] at hsorted
  have hexu : (trace r t).exu ∈ name (r.st t).exuIn (trace r t).exu := by simp [hv]
  have hissued : (trace r t).exu ∈ (trace r t).issued :=
    hin.issued _ (mem_live_of_back (.inr (List.mem_append_left _ hexu)))
  constructor
  case past =>
    refine ⟨issued_succ hissued, fun n hn => ?_⟩
    rw [st_succ, trace_succ] at hn
    rcases front_next_of_exuFire hfire n hn with hn | hn
    · exact hsorted.2.1.2.1.2.2 _ hexu n hn
    · exact hin.issued_lt_fresh hissued hn
  case lsu =>
    intro _ _
    rw [st_succ, next_lsuIn_of_exuFire hfire]
    exact hexc
  case wbu =>
    -- write-back holds an older instruction
    intro hwv hname
    exfalso
    rw [st_succ, next_wbuIn_valid, Bool.and_eq_true, decide_eq_true_eq] at hwv
    rw [trace_succ] at hname
    simp only [Trace.next, LSU.outValid_eq, hwv.2, decide_true, if_true] at hname
    have hlt := hsorted.2.1.2.2 (trace r t).lsu
      (by simp [(pipelineInv r t).held (by simp [hwv.2])]) _ (List.mem_append_left _ hexu)
    omega

/-- It keeps the exception as long as it is there. -/
theorem Excepted.succ {t e : ℕ} (h : Excepted r t e) : Excepted r (t + 1) e := by
  constructor
  case past => exact h.past.succ
  case lsu =>
    intro hlv hname
    rw [st_succ] at hlv ⊢
    rw [trace_succ] at hname
    rw [next_lsuIn_valid] at hlv
    cases hfire : (r.st t).exuFire with
    | true =>
        -- a younger instruction comes in
        have hmem : (trace r t).exu ∈ front (r.st t) (trace r t) :=
          List.mem_append_left _ (by simp [(Bool.and_eq_true_iff.mp hfire).1])
        have hlt := h.past.2 _ hmem
        simp only [Trace.next, hfire, if_true] at hname
        omega
    | false =>
        have hnr : (r.st t).lsuInReady = false := by
          by_contra hnr
          simp only [Bool.not_eq_false] at hnr
          rw [hnr] at hlv
          cases hwf : (r.st t).wbuFlush <;> simp_all [exuFire]
        rw [next_lsuIn_of_not_ready hnr]
        simp only [Trace.next, hfire, Bool.false_eq_true, if_false] at hname
        rw [hnr] at hlv
        cases hwf : (r.st t).wbuFlush with
        | true => simp [hwf] at hlv
        | false =>
            rw [hwf] at hlv
            exact h.lsu (by simpa using hlv) hname
  case wbu =>
    intro hwv hname
    rw [st_succ] at hwv ⊢
    rw [next_wbuIn_valid, Bool.and_eq_true, decide_eq_true_eq] at hwv
    rw [trace_succ] at hname
    simp only [Trace.next, LSU.outValid_eq, hwv.2, decide_true, if_true] at hname
    rw [next_wbuIn_bits hwv.2]
    have hex := h.lsu ((pipelineInv r t).held (by simp [hwv.2])) hname
    simp [LSU.bits, LSU.excp, hex]

/-- An instruction with an exception has it until it retires. -/
theorem excepted_stays {t u : ℕ} (hfire : (r.st t).exuFire = true)
    (hexc : (EXU.bits (r.st t).exuIn.bits (r.st t).csrRsData).exception.valid = true)
    (hu : t + 1 ≤ u) : Excepted r u (trace r t).exu := by
  induction u, hu using Nat.le_induction with
  | base => exact Excepted.of_exuFire hfire hexc
  | succ u hu ih => exact ih.succ

/-- An instruction that entered the load and store unit with an exception never acts. -/
theorem Acts.not_excepted {t e : ℕ} (h : Acts r t e) : ¬ EntersExcepted r e := by
  rintro ⟨u, hfire, hname, hexc⟩
  have hmem : (trace r u).exu ∈ front (r.st u) (trace r u) :=
    List.mem_append_left _ (by simp [(Bool.and_eq_true_iff.mp hfire).1])
  rcases Nat.lt_or_ge u t with htu | htu
  · have hstays := excepted_stays hfire hexc htu
    rcases h with ⟨hreq, hlname⟩ | ⟨hw, hwname⟩
    · have hstate := state_of_requests hreq
      have hvalid : (r.st t).lsuIn.valid = true :=
        (pipelineInv r t).held (by rcases hstate with h | h | h <;> simp [h])
      have hentry := LSU.entryState_of_exception (hstays.lsu hvalid (by omega))
      have hserves := (pipelineInv r t).serves
      rcases hstate with h | h | h <;> simp [LSU.Serves, h, hentry] at hserves
    · simp only [Writes, WBU.rdWe, WBU.csrRdWe, Bool.and_eq_true, Bool.not_eq_true'] at hw
      have hex := hstays.wbu (by rcases hw with hw | hw <;> exact hw.1.1) (by omega)
      rcases hw with hw | hw <;> simp [hex] at hw
  · have hlt := (h.past.mono htu).2 _ hmem
    omega

/-! ## The main theorem -/

/-- **Precise state**: a flush of write-back finds the load and store unit idle, and
whoever acts is neither squashed, sooner or later, nor excepted. -/
theorem no_speculative_effects (r : machine.Run) :
    (∀ t, (r.st t).wbuFlush = true → (r.st t).lsu.state = .idle) ∧
      ∀ t e, Acts r t e → ¬ Squashed r e ∧ ¬ EntersExcepted r e :=
  ⟨fun t => (pipelineInv r t).idle_of_wbuFlush,
    fun _ _ h => ⟨h.not_squashed, h.not_excepted⟩⟩

end Core

end Bailuwan
