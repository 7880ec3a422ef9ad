/-
# Instructions in flight

An instruction is named by the cycle in which the cache accepted the request for it,
and its name follows it through the pipeline registers (`Trace`).

* `live_next`: the pipeline moves in order;
* `InOrder` and `inOrder`: the names in the four registers are in program order, and
  whatever is still to come is younger than all of them.
-/
import Bailuwan.FetchStream
import Bailuwan.Pipeline

namespace Bailuwan

open Synchronous AXI4

namespace Core

/-! ## Names -/

/-- The names of the instructions in the pipeline registers, of all those handed to the
decoder so far, and the log of the fetch unit they come from. -/
structure Trace where
  fetch : IFU.FetchLog := {}
  idu : ℕ := 0
  exu : ℕ := 0
  lsu : ℕ := 0
  wbu : ℕ := 0
  issued : List ℕ := []

/-- The name of the instruction handed to the decoder in this cycle. -/
def Trace.fresh (g : Trace) (c : Core) (io : In) : List ℕ :=
  if (c.ifu.delivers (c.ifuIn io)).isSome then [g.fetch.queued.headD 0] else []

/-- The names move with the contents of the pipeline registers. -/
def Trace.next (g : Trace) (c : Core) (io : In) : Trace where
  fetch := g.fetch.next c.ifu (c.ifuIn io)
  idu := if (c.ifu.delivers (c.ifuIn io)).isSome then g.fetch.queued.headD 0 else g.idu
  exu := if c.iduFire then g.idu else g.exu
  lsu := if c.exuFire then g.exu else g.lsu
  wbu := if c.lsu.outValid then g.lsu else g.wbu
  issued := g.issued ++ g.fresh c io

/-- The names along a run. -/
def trace (r : machine.Run) : ℕ → Trace := r.watch {} Trace.next

/-- The name of a register that holds an instruction. -/
def name {α : Type*} (reg : Valid α) (n : ℕ) : List ℕ := if reg.valid then [n] else []

/-- A register that holds something has its name. -/
@[simp] theorem mem_name {α : Type*} {reg : Valid α} {n e : ℕ} :
    e ∈ name reg n ↔ reg.valid = true ∧ e = n := by
  unfold name
  split_ifs with h <;> simp [h]

/-- The instructions in front of the execution stage. -/
def front (c : Core) (g : Trace) : List ℕ := name c.exuIn g.exu ++ name c.iduIn g.idu

/-- The instructions in the pipeline, oldest first. -/
def live (c : Core) (g : Trace) : List ℕ :=
  name c.wbuIn g.wbu ++ (name c.lsuIn g.lsu ++ front c g)

variable {c : Core} {g : Trace} {io : In}

/-! ## The names after a cycle -/

/-- Nothing enters a decoder that is not ready. -/
theorem fresh_eq_nil (h : c.iduInReady = false) : g.fresh c io = [] := by
  have hd : c.ifu.delivers (c.ifuIn io) = none := by
    have hr : (c.ifuIn io).outReady = false := h
    simp [IFU.delivers, hr]
  simp [Trace.fresh, hd]

/-- The decoder holds what was fetched or what it has held back. -/
theorem next_iduIn_name (hf : c.wbuFlush = false) (hx : c.exuFlush = false) :
    name (c.next io).iduIn (g.next c io).idu =
      if c.iduInReady then g.fresh c io else name c.iduIn g.idu := by
  rw [name, next_iduIn_valid, hf, hx]
  cases hr : c.iduInReady with
  | false =>
      have hd : (c.ifu.delivers (c.ifuIn io)).isSome = false := by
        have hr' : (c.ifuIn io).outReady = false := hr
        simp [IFU.delivers, hr']
      simp [Trace.next, hd, name]
  | true =>
      have hd : c.ifu.delivers (c.ifuIn io) = c.ifu.out (c.ifuIn io) := by
        have hr' : (c.ifuIn io).outReady = true := hr
        simp [IFU.delivers, hr']
      cases ho : (c.ifu.out (c.ifuIn io)).isSome <;> simp [Trace.next, Trace.fresh, hd, ho]

/-- The execution unit holds what was decoded, a bubble or what it has held back. -/
theorem next_exuIn_name (hf : c.wbuFlush = false) (hx : c.exuFlush = false) :
    name (c.next io).exuIn (g.next c io).exu =
      if c.lsuInReady then (if c.hazardStall then [] else name c.iduIn g.idu)
      else name c.exuIn g.exu := by
  rw [name, next_exuIn_valid, hf, hx]
  cases hr : c.lsuInReady <;> cases hs : c.hazardStall <;> cases hv : c.iduIn.valid <;>
    simp [Trace.next, iduFire, name, hr, hs, hv]

/-- The load and store unit holds what was executed or what it has held back. -/
theorem next_lsuIn_name (hf : c.wbuFlush = false) :
    name (c.next io).lsuIn (g.next c io).lsu =
      if c.lsuInReady then name c.exuIn g.exu else name c.lsuIn g.lsu := by
  rw [name, next_lsuIn_valid, hf]
  cases hr : c.lsuInReady <;> cases hv : c.exuIn.valid <;>
    simp [Trace.next, exuFire, name, hr, hv]

/-- The write back stage holds what has left the load and store unit. -/
theorem next_wbuIn_name (h : PipelineInv c) (hf : c.wbuFlush = false) :
    name (c.next io).wbuIn (g.next c io).wbu =
      if c.lsuInReady then name c.lsuIn g.lsu else [] := by
  rw [name, next_wbuIn_valid, hf]
  by_cases hs : c.lsu.state = .waitReady
  · have hr : c.lsuInReady = true := LSU.inReady_of_waitReady hs
    simp [Trace.next, LSU.outValid_eq, hs, hr, name, h.held (by simp [hs])]
  · by_cases hi : c.lsu.state = .idle
    · have hr : c.lsuInReady = !c.lsuIn.valid := LSU.inReady_of_idle hi
      cases hv : c.lsuIn.valid <;> simp [hs, hr, hv, name]
    · have hr : c.lsuInReady = false := LSU.inReady_of_busy hi hs
      simp [hs, hr]

/-- A flush of write-back empties the pipeline. -/
theorem live_of_wbuFlush {i : In} (hf : c.wbuFlush = true) : live (c.next i) (g.next c i) = [] := by
  simp [live, front, name, next_wbuIn_valid, next_lsuIn_valid, next_exuIn_valid,
    next_iduIn_valid, hf]

/-- A flush of the execution stage empties the registers in front of it. -/
theorem front_of_exuFlush (hx : c.exuFlush = true) : front (c.next io) (g.next c io) = [] := by
  have hr : c.lsuInReady = true := by
    simp only [exuFlush, EXU.brMispredict, EXU.validBr, exuFire, Bool.and_eq_true] at hx
    exact hx.1.1.2
  have hv : (c.next io).exuIn.valid = false := by
    rw [next_exuIn_valid, hr, hx]
    cases c.wbuFlush <;> rfl
  have hv' : (c.next io).iduIn.valid = false := by
    rw [next_iduIn_valid, hx, Bool.or_true]
    rfl
  simp [front, name, hv, hv']

/-- **The pipeline moves in order**: what is in flight after a cycle was in flight before
it, behind write-back, or has just been handed over. -/
theorem live_next {i : In} (h : PipelineInv c) :
    List.Sublist (live (c.next i) (g.next c i))
      (name c.lsuIn g.lsu ++ (front c g ++ g.fresh c i)) := by
  cases hf : c.wbuFlush with
  | true =>
      rw [live_of_wbuFlush hf]
      exact List.nil_sublist _
  | false =>
      rw [live, next_wbuIn_name h hf, next_lsuIn_name hf]
      cases hx : c.exuFlush with
      | true =>
          -- the branch that redirects is handed over itself
          have hr : c.lsuInReady = true := by
            simp only [exuFlush, EXU.brMispredict, EXU.validBr, exuFire, Bool.and_eq_true] at hx
            exact hx.1.1.2
          rw [front_of_exuFlush hx, hr, front]
          simp only [if_true, List.append_nil, List.append_assoc]
          exact List.Sublist.append (List.Sublist.refl _) (List.sublist_append_left _ _)
      | false =>
          rw [front, next_exuIn_name hf hx, next_iduIn_name hf hx, front]
          cases hr : c.lsuInReady with
          | false =>
              have hq : c.iduInReady = false := by simp [iduInReady, hr]
              simp [hq, fresh_eq_nil hq]
          | true =>
              cases hs : c.hazardStall with
              | true =>
                  have hq : c.iduInReady = false := by simp [iduInReady, hs]
                  simp [hq, fresh_eq_nil hq]
              | false =>
                  have hq : c.iduInReady = true := by simp [iduInReady, hs, hr]
                  simp [hq]

/-- What is in front of the execution stage after a cycle was there before it, or has
just been handed over. -/
theorem front_next (e : ℕ) (he : e ∈ front (c.next io) (g.next c io)) :
    e ∈ front c g ∨ e ∈ g.fresh c io := by
  cases hf : c.wbuFlush with
  | true =>
      have hnil : front (c.next io) (g.next c io) = [] := by
        simp [front, name, next_exuIn_valid, next_iduIn_valid, hf]
      simp [hnil] at he
  | false =>
      cases hx : c.exuFlush with
      | true => simp [front_of_exuFlush hx] at he
      | false =>
          rw [front, next_exuIn_name hf hx, next_iduIn_name hf hx] at he
          unfold front
          cases hr : c.lsuInReady <;> cases hs : c.hazardStall <;>
            simp only [iduInReady, hr, hs, Bool.and_self, Bool.and_true, Bool.and_false,
              Bool.not_true, Bool.not_false, if_true, if_false, Bool.false_eq_true,
              List.mem_append, List.nil_append] at he ⊢ <;>
            tauto

/-- When the execution stage hands its instruction over, only younger ones remain in
front of the stage. -/
theorem front_next_of_exuFire (hfire : c.exuFire = true) (e : ℕ)
    (he : e ∈ front (c.next io) (g.next c io)) :
    e ∈ name c.iduIn g.idu ∨ e ∈ g.fresh c io := by
  have hr : c.lsuInReady = true := (Bool.and_eq_true_iff.mp hfire).2
  cases hf : c.wbuFlush with
  | true =>
      have hnil : front (c.next io) (g.next c io) = [] := by
        simp [front, name, next_exuIn_valid, next_iduIn_valid, hf]
      simp [hnil] at he
  | false =>
      cases hx : c.exuFlush with
      | true => simp [front_of_exuFlush hx] at he
      | false =>
          rw [front, next_exuIn_name hf hx, next_iduIn_name hf hx] at he
          cases hs : c.hazardStall <;>
            simp only [iduInReady, hr, hs, Bool.and_self, Bool.and_false, Bool.not_true,
              Bool.not_false, if_true, if_false, Bool.false_eq_true, List.mem_append,
              List.nil_append] at he <;>
            tauto

/-! ## Program order -/

/-- The names in flight increase from the oldest instruction to the youngest; they have
been issued, and whatever has been issued is older than what the fetch unit still holds. -/
structure InOrder (c : Core) (g : Trace) : Prop where
  account : IFU.Account g.fetch c.ifu
  sorted : (live c g).Pairwise (· < ·)
  issued : ∀ e ∈ live c g, e ∈ g.issued
  older : ∀ e ∈ g.issued, e < g.fetch.since ∨ e ∈ g.fetch.delivered.map Prod.fst

/-- After reset nothing is in flight. -/
theorem InOrder.of_reset (h : c.IsReset) : InOrder c {} where
  account := IFU.Account.of_reset h.ifu
  sorted := by simp [live, front, name, h.iduIn, h.exuIn, h.lsuIn, h.wbuIn]
  issued := by simp [live, front, h.iduIn, h.exuIn, h.lsuIn, h.wbuIn]
  older := by simp

/-- The instruction handed over is the head of the queue, under its name. -/
theorem queue_of_fresh (h : InOrder c g) {e : ℕ} (he : e ∈ g.fresh c io) :
    (c.ifuIn io).redirectValid = false ∧ ∃ x l, g.fetch.queued = e :: l ∧
      g.fetch.requested = g.fetch.delivered ++ (e, x) :: (l.zip
        (c.ifu.queue.tail.map IFUOut.fetch) ++ c.ifu.pending.map fun y => (g.fetch.lastReq, y)) := by
  unfold Trace.fresh at he
  split_ifs at he with hd
  · obtain ⟨o, ho⟩ := Option.isSome_iff_exists.mp hd
    simp only [IFU.delivers, IFU.out] at ho
    split_ifs at ho with h1 h2
    have hlen := h.account.queued
    have hbal := h.account.balance
    cases hq : c.ifu.queue with
    | nil => simp [hq] at ho
    | cons y q =>
        cases hn : g.fetch.queued with
        | nil => simp [hq, hn] at hlen
        | cons n l =>
            have hen : e = n := by simpa [hn] using he
            subst hen
            rw [hq, hn] at hbal
            refine ⟨by simpa using h2, y.fetch, l, rfl, ?_⟩
            rw [hbal]
            simp
  · simp at he

/-- A fresh name is younger than everything issued. -/
theorem InOrder.issued_lt_fresh (h : InOrder c g) {e n : ℕ} (he : e ∈ g.issued)
    (hn : n ∈ g.fresh c io) : e < n := by
  obtain ⟨-, x, l, -, hreq⟩ := queue_of_fresh h hn
  have hdist := h.account.distinct
  have hfresh := h.account.fresh (n, x) (by rw [hreq]; simp)
  rcases h.older e he with hold | hold
  · exact lt_of_lt_of_le hold hfresh.1
  · rw [hreq, List.map_append, List.pairwise_append] at hdist
    exact hdist.2.2 e hold n (by simp)

/-- A fresh name is not older than the last redirect. -/
theorem InOrder.since_le_fresh (h : InOrder c g) {n : ℕ} (hn : n ∈ g.fresh c io) :
    g.fetch.since ≤ n ∧ n < g.fetch.now := by
  obtain ⟨-, x, l, -, hreq⟩ := queue_of_fresh h hn
  exact h.account.fresh (n, x) (by rw [hreq]; simp)

/-- At most one instruction is fetched in a cycle, and all later than those before. -/
theorem fresh_short : (g.fresh c io).Pairwise (· < ·) := by
  unfold Trace.fresh
  split_ifs <;> simp

/-- **Program order is kept by every cycle.** -/
theorem InOrder.next (hp : PipelineInv c) (h : InOrder c g) :
    InOrder (c.next io) (g.next c io) := by
  have hsub := live_next (i := io) (g := g) hp
  have hlive : live c g = name c.wbuIn g.wbu ++ (name c.lsuIn g.lsu ++ front c g) := rfl
  have hback : (name c.lsuIn g.lsu ++ front c g).Pairwise (· < ·) :=
    (List.pairwise_append.mp (hlive ▸ h.sorted)).2.1
  have hissued : ∀ e ∈ name c.lsuIn g.lsu ++ front c g, e ∈ g.issued :=
    fun e he => h.issued e (hlive ▸ List.mem_append_right _ he)
  rw [← List.append_assoc] at hsub
  refine ⟨h.account.next, ?_, ?_, ?_⟩
  · refine List.Pairwise.sublist hsub (List.pairwise_append.mpr ⟨hback, fresh_short, ?_⟩)
    exact fun e he n hn => h.issued_lt_fresh (hissued e he) hn
  · intro e he
    rcases List.mem_append.mp (hsub.subset he) with he | he
    · exact List.mem_append_left _ (hissued e he)
    · exact List.mem_append_right _ he
  · intro e he
    rcases List.mem_append.mp (show e ∈ g.issued ++ g.fresh c io from he) with he | he
    · cases hr : (c.ifuIn io).redirectValid with
      | true =>
          -- a redirect starts a new stream: everything issued is older than it
          refine .inl ?_
          have hsince : (g.next c io).fetch.since = g.fetch.now + 1 := by
            simp [Trace.next, IFU.FetchLog.next, hr]
          rw [hsince]
          have hclock := h.account.clock
          rcases h.older e he with hold | hold
          · omega
          · have hbal := h.account.balance
            obtain ⟨x, hx, rfl⟩ := List.mem_map.mp hold
            have := (h.account.fresh x (by rw [hbal]; simp [hx])).2
            omega
      | false =>
          have hsince : (g.next c io).fetch.since = g.fetch.since := by
            simp [Trace.next, IFU.FetchLog.next, hr]
          rw [hsince]
          refine (h.older e he).imp_right fun hold => ?_
          simp only [Trace.next, IFU.FetchLog.next, hr, Bool.false_eq_true, if_false,
            List.map_append]
          exact List.mem_append_left _ hold
    · obtain ⟨hr, x, l, hq, -⟩ := queue_of_fresh h he
      have hd : ∃ o, c.ifu.delivers (c.ifuIn io) = some o := by
        unfold Trace.fresh at he
        split_ifs at he with hd
        · exact Option.isSome_iff_exists.mp hd
        · simp at he
      obtain ⟨o, ho⟩ := hd
      exact .inr (by simp [Trace.next, IFU.FetchLog.next, hr, hq, ho])

theorem st_succ (r : machine.Run) (t : ℕ) : r.st (t + 1) = (r.st t).next (r.inp t) := r.step t

theorem trace_succ (r : machine.Run) (t : ℕ) :
    trace r (t + 1) = (trace r t).next (r.st t) (r.inp t) := rfl

/-- Instructions are in order in every run. -/
theorem inOrder (r : machine.Run) (t : ℕ) : InOrder (r.st t) (trace r t) := by
  induction t with
  | zero => exact InOrder.of_reset r.start
  | succ t ih =>
      rw [st_succ, trace_succ]
      exact ih.next (pipelineInv r t)

end Core

end Bailuwan
