/-
# The core does not stop

On a slave that answers (`Responds`) an instruction leaves the pipeline again and again
(`retires`): one that is held by a register moves on, since the load and store unit ends its
accesses; an empty pipeline gets one, since nothing can redirect the fetch any more and the
cache then answers its request, or the one after a killed request.  So every fill of the cache
ends as well (`fills_end`), although the load and store unit comes first on the bus.
-/
import Bailuwan.InFlight
import Bailuwan.PortProgress

namespace Bailuwan

open Synchronous AXI4

namespace Core

variable {c : Core} {io : In} {r : machine.Run} {t : ℕ}

/-- An instruction leaves the pipeline, with its effects or with a trap. -/
def RetiresAt (r : machine.Run) (t : ℕ) : Prop := (r.st t).wbuIn.valid = true

/-- Something is in the pipeline or in the queue in front of it. -/
def Holds (c : Core) : Prop :=
  c.wbuIn.valid = true ∨ c.lsuIn.valid = true ∨ c.exuIn.valid = true ∨ c.iduIn.valid = true ∨
    c.ifu.queue ≠ []

/-! ## What is in the pipeline moves on -/

/-- An empty stage redirects nothing. -/
theorem wbuFlush_of_empty (h : ¬ c.wbuIn.valid = true) : c.wbuFlush = false := by
  simp [wbuFlush, WBU.redirectValid, h]

theorem exuFlush_of_empty (h : ¬ c.exuIn.valid = true) : c.exuFlush = false := by
  simp [exuFlush, EXU.brMispredict, EXU.validBr, exuFire, h]

/-- A unit without an instruction is idle, and takes the next one. -/
theorem PipelineInv.ready_of_empty (h : PipelineInv c) (hl : ¬ c.lsuIn.valid = true) :
    c.lsuInReady = true := by
  have hst : c.lsu.state = .idle := by
    by_contra hst
    exact hl (h.held hst)
  rw [lsuInReady, LSU.inReady_of_idle hst]
  simpa using hl

/-- Nothing stalls the decoder when the later stages are empty. -/
theorem hazardStall_of_empty (hw : ¬ c.wbuIn.valid = true) (hl : ¬ c.lsuIn.valid = true)
    (hx : ¬ c.exuIn.valid = true) : c.hazardStall = false := by
  have hno : ∀ info ∈ c.hazards, info.valid = false := by
    intro info hinfo
    simp only [hazards, List.mem_cons, List.not_mem_nil, or_false] at hinfo
    rcases hinfo with rfl | rfl | rfl
    · simp [EXU.hazard, hx]
    · simp [LSU.hazard, hl]
    · simp [WBU.hazard, hw]
  have hany : ∀ f : HazardInfo → Bool,
      (c.hazards.any fun info => info.valid && f info) = false := by
    intro f
    rw [List.any_eq_false]
    intro info hinfo
    simp [hno info hinfo]
  have hvalid : (c.hazards.any fun info => info.valid) = false := by
    simpa using hany fun _ => true
  simp only [hazardStall, IDU.hazardStall, IDU.needStall, IDU.waitEbreak, Bool.and_assoc, hany,
    hvalid, Bool.and_false, Bool.or_false]

/-- What is in the load and store unit retires. -/
theorem Responds.lsu_retires (h : Responds r) :
    LeadsTo (fun t => (r.st t).lsu.state ≠ .idle) (RetiresAt r) := by
  have hdone : LeadsTo (fun t => (r.st t).lsu.state = .waitReady) (RetiresAt r) := by
    refine LeadsTo.of_next fun t hst => ?_
    have hflush := (pipelineInv r t).wbuFlush_of_busy (by simp [hst])
    rw [RetiresAt, r.step t]
    show (Core.next (r.st t) (r.inp t)).wbuIn.valid = true
    rw [next_wbuIn_valid, hflush, hst]
    rfl
  exact LeadsTo.except hdone (h.access_ends.trans hdone)

/-- What is in the load and store unit leads to a retirement. -/
theorem Responds.lsuIn_retires (h : Responds r) :
    LeadsTo (fun t => (r.st t).lsuIn.valid = true) (RetiresAt r) := by
  refine LeadsTo.except (s := RetiresAt r) (LeadsTo.of_imp fun _ ht => ht) ?_
  refine LeadsTo.except h.lsu_retires ((LeadsTo.of_next fun t ht => ?_).trans h.lsu_retires)
  obtain ⟨⟨hv, hw⟩, hst⟩ := ht
  rw [not_not] at hst
  rw [r.step t]
  show (Core.next (r.st t) (r.inp t)).lsu.state ≠ .idle
  rw [next_lsu_state, LSU.nextState, hst, hv, wbuFlush_of_empty hw]
  rcases LSU.entryState_cases (r.st t).lsuIn.bits with he | he | he <;> simp [he]

/-- What is in the execution unit leads to a retirement. -/
theorem Responds.exuIn_retires (h : Responds r) :
    LeadsTo (fun t => (r.st t).exuIn.valid = true) (RetiresAt r) := by
  refine LeadsTo.except (s := RetiresAt r) (LeadsTo.of_imp fun _ ht => ht) ?_
  refine LeadsTo.except h.lsuIn_retires ?_
  refine (LeadsTo.of_next fun t ht => ?_).trans h.lsuIn_retires
  obtain ⟨⟨hv, hw⟩, hl⟩ := ht
  rw [r.step t]
  show (Core.next (r.st t) (r.inp t)).lsuIn.valid = true
  rw [next_lsuIn_valid, wbuFlush_of_empty hw, (pipelineInv r t).ready_of_empty hl]
  exact hv

/-- What is in the decoder leads to a retirement. -/
theorem Responds.iduIn_retires (h : Responds r) :
    LeadsTo (fun t => (r.st t).iduIn.valid = true) (RetiresAt r) := by
  refine LeadsTo.except (s := RetiresAt r) (LeadsTo.of_imp fun _ ht => ht) ?_
  refine LeadsTo.except h.lsuIn_retires ?_
  refine LeadsTo.except h.exuIn_retires ?_
  refine (LeadsTo.of_next fun t ht => ?_).trans h.exuIn_retires
  obtain ⟨⟨⟨hv, hw⟩, hl⟩, hx⟩ := ht
  rw [r.step t]
  show (Core.next (r.st t) (r.inp t)).exuIn.valid = true
  rw [next_exuIn_valid, wbuFlush_of_empty hw, (pipelineInv r t).ready_of_empty hl,
    exuFlush_of_empty hx, hv, hazardStall_of_empty hw hl hx]
  rfl

/-- What is in the queue leads to a retirement. -/
theorem Responds.queue_retires (h : Responds r) :
    LeadsTo (fun t => (r.st t).ifu.queue ≠ []) (RetiresAt r) := by
  refine LeadsTo.except (s := RetiresAt r) (LeadsTo.of_imp fun _ ht => ht) ?_
  refine LeadsTo.except h.lsuIn_retires ?_
  refine LeadsTo.except h.exuIn_retires ?_
  refine (LeadsTo.of_next fun t ht => ?_).trans h.iduIn_retires
  obtain ⟨⟨⟨hq, hw⟩, hl⟩, hx⟩ := ht
  have hredirect : ((r.st t).ifuIn (r.inp t)).redirectValid = false := by
    show ((r.st t).exuFlush || (r.st t).wbuFlush) = false
    rw [exuFlush_of_empty hx, wbuFlush_of_empty hw]
    rfl
  have hready : (r.st t).iduInReady = true := by
    rw [iduInReady, (pipelineInv r t).ready_of_empty hl, hazardStall_of_empty hw hl hx]
    rfl
  rw [r.step t]
  show (Core.next (r.st t) (r.inp t)).iduIn.valid = true
  rw [next_iduIn_valid, exuFlush_of_empty hx, wbuFlush_of_empty hw, hready, IFU.out, hredirect]
  obtain ⟨o, rest, ho⟩ := List.exists_cons_of_ne_nil hq
  simp [ho]

/-- **What is in the pipeline, or waits in front of it, makes an instruction retire.** -/
theorem Responds.holds_retires (h : Responds r) :
    LeadsTo (fun t => Holds (r.st t)) (RetiresAt r) :=
  (LeadsTo.of_imp fun _ ht => ht).or
    (h.lsuIn_retires.or (h.exuIn_retires.or (h.iduIn_retires.or h.queue_retires)))

/-! ## An empty pipeline is filled -/

/-- What the cache sees of an empty pipeline: a request, no kill and no flush, and room for the
answer. -/
theorem cacheIn_of_empty (io : In) (h : ¬ Holds c) :
    (c.ifu.icacheIn (c.ifuIn io)).req.valid = true ∧
      (c.ifu.icacheIn (c.ifuIn io)).kill = false ∧
      (c.ifu.icacheIn (c.ifuIn io)).flush = false ∧
      (c.ifu.icacheIn (c.ifuIn io)).respReady = true := by
  simp only [Holds, not_or, not_not] at h
  obtain ⟨hw, -, hx, -, hq⟩ := h
  have hredirect : (c.ifuIn io).redirectValid = false := by
    show (c.exuFlush || c.wbuFlush) = false
    rw [exuFlush_of_empty hx, wbuFlush_of_empty hw]
    rfl
  refine ⟨?_, hredirect, ?_, ?_⟩
  · show (!(c.ifuIn io).redirectValid) = true
    rw [hredirect]
    rfl
  · show (c.wbuIn.valid && c.wbuIn.bits.isFenceI) = false
    simp [hw]
  · show decide (c.ifu.queue.length < 4) = true
    simp [hq]

/-- An answer of the cache goes into the queue. -/
theorem holds_of_respFire (h : ¬ Holds c)
    (hr : c.ifu.icache.respFire (c.ifu.icacheIn (c.ifuIn io)) = true) : Holds (c.next io) := by
  have hkill : (c.ifuIn io).redirectValid = false := (cacheIn_of_empty io h).2.1
  have hfire : c.ifu.respFire (c.ifuIn io) = true := hr
  refine .inr (.inr (.inr (.inr ?_)))
  show (c.ifu.next (c.ifuIn io)).queue ≠ []
  simp [IFU.next, hkill, hfire]

/-- The pipeline is empty and the cache in a given state, with a killed request or not. -/
structure Fetches (r : machine.Run) (s : ICacheState) (killed : Bool) (t : ℕ) : Prop where
  empty : ¬ Holds (r.st t)
  state : (cache r t).state = s
  killed : (cache r t).reqKilled = killed

/-- As long as the pipeline is empty no request is killed. -/
theorem fetches_next (h : ¬ Holds (r.st t)) : Holds (r.st (t + 1)) ∨
    Fetches r ((cache r t).next (cacheIn r t)).state
      (if (cache r t).state = .idle then false else (cache r t).reqKilled) (t + 1) := by
  by_cases hh : Holds (r.st (t + 1))
  · exact .inl hh
  · refine .inr ⟨hh, by rw [cache_succ], ?_⟩
    have hkill : (cacheIn r t).kill = false := (cacheIn_of_empty _ h).2.1
    rw [cache_succ]
    show (if (cacheIn r t).kill then true else _) = _
    rw [hkill]
    rfl

/-- While the queue is empty nothing is killed but what was killed before. -/
theorem isKilled_of_empty (h : ¬ Holds (r.st t)) :
    (cache r t).isKilled (cacheIn r t) = (cache r t).reqKilled := by
  have hkill : (cacheIn r t).kill = false := (cacheIn_of_empty _ h).2.1
  rw [ICache.isKilled, hkill, Bool.false_or]

/-- A fill goes on until it is done, and keeps its mark, unless the pipeline is filled. -/
theorem Responds.fill_leads (h : Responds r) (k : Bool) :
    LeadsTo (fun t => Fetches r .fillAddr k t ∨ Fetches r .waitMem k t)
      fun t => Holds (r.st t) ∨ Fetches r (if k then .idle else .resp) k t := by
  have hend : LeadsTo (fun t => (cache r t).state = .fillAddr ∨ (cache r t).state = .waitMem)
      fun t => (cache r t).fillDone (cacheIn r t) = true ∨ Holds (r.st t) := by
    refine h.fill_ends.mono (fun _ ht => ht) fun t ht => ht.imp_right fun hst => ?_
    refine .inr (.inl ((pipelineInv r t).held ?_))
    rcases hst with hst | hst <;> simp [hst]
  have hkeep : ∀ t, (Holds (r.st t) ∨ Fetches r .fillAddr k t ∨ Fetches r .waitMem k t) →
      ¬ ((cache r t).fillDone (cacheIn r t) = true ∨ Holds (r.st t)) →
      Holds (r.st (t + 1)) ∨ Fetches r .fillAddr k (t + 1) ∨ Fetches r .waitMem k (t + 1) := by
    intro t hs hno
    rw [not_or] at hno
    refine (fetches_next hno.2).imp_right fun hnext => ?_
    rcases hs.resolve_left hno.2 with hf | hf
    · rw [hf.state, hf.killed, ICache.next_state_of_fillAddr hf.state] at hnext
      cases har : (cache r t).arFire (cacheIn r t) <;> rw [har] at hnext
      · exact .inl hnext
      · exact .inr hnext
    · rw [hf.state, hf.killed, ICache.next_state_of_waitMem hf.state, if_neg hno.1] at hnext
      exact .inr hnext
  refine ((hend.holding hkeep).mono (fun t ht => ⟨?_, .inr ht⟩) fun _ ht => ht).trans ?_
  · exact ht.imp (fun hf => hf.state) fun hf => hf.state
  · refine LeadsTo.except (s := fun t => Holds (r.st t)) (LeadsTo.of_imp fun _ ht => .inl ht)
      (LeadsTo.of_next ?_)
    rintro t ⟨⟨hdone, hs⟩, hno⟩
    have hdone' := hdone.resolve_right hno
    refine (fetches_next hno).imp_right fun hnext => ?_
    have hst := (cache r t).state_of_fillDone _ hdone'
    have hk : (cache r t).reqKilled = k := by
      rcases hs.resolve_left hno with hf | hf <;> exact hf.killed
    rw [hst, ICache.next_state_of_waitMem hst, if_pos hdone', isKilled_of_empty hno, hk] at hnext
    exact hnext

/-- A hit that is ready goes into the queue. -/
theorem resp_leads : LeadsTo (Fetches r .resp false) fun t => Holds (r.st t) := by
  refine LeadsTo.of_next fun t ht => ?_
  have hkilled := isKilled_of_empty ht.empty
  rw [ht.killed] at hkilled
  have hready : (cacheIn r t).respReady = true := (cacheIn_of_empty _ ht.empty).2.2.2
  have hfire : (cache r t).respFire (cacheIn r t) = true := by
    rw [ICache.respFire, ICache.respValid, hkilled, hready, decide_eq_true ht.state, Bool.or_true]
    rfl
  rw [r.step t]
  exact holds_of_respFire ht.empty hfire

/-- A request that is not killed leads to an instruction. -/
theorem Responds.fetch_leads (h : Responds r) :
    LeadsTo (fun t => Fetches r .fillAddr false t ∨ Fetches r .waitMem false t)
      fun t => Holds (r.st t) :=
  (h.fill_leads false).trans ((LeadsTo.of_imp fun _ ht => ht).or resp_leads)

/-- A cache that is idle takes a request. -/
theorem Responds.idle_leads (h : Responds r) (k : Bool) :
    LeadsTo (Fetches r .idle k) fun t => Holds (r.st t) := by
  have hnext : LeadsTo (Fetches r .idle k) fun t => Holds (r.st t) ∨
      (Fetches r .fillAddr false t ∨ Fetches r .waitMem false t) ∨ Fetches r .resp false t := by
    refine LeadsTo.of_next fun t ht => ?_
    obtain ⟨hreq, hkill, -, -⟩ := cacheIn_of_empty (r.inp t) ht.empty
    have hfire : (cache r t).reqFire (cacheIn r t) = true :=
      Bool.and_eq_true_iff.mpr ⟨hreq, decide_eq_true ht.state⟩
    have hf := fetches_next ht.empty
    rw [ht.state, if_pos rfl, ICache.next_state_of_reqFire hfire,
      show (cacheIn r t).kill = false from hkill] at hf
    cases hhit : (cache r t).hit (cacheIn r t) with
    | false =>
        rw [hhit] at hf
        exact hf.imp_right fun hf => .inl (.inl hf)
    | true =>
        cases hresp : (cache r t).respFire (cacheIn r t) with
        | true =>
            left
            rw [r.step t]
            exact holds_of_respFire ht.empty hresp
        | false =>
            rw [hhit, hresp] at hf
            exact hf.imp_right .inr
  exact hnext.trans ((LeadsTo.of_imp fun _ ht => ht).or (h.fetch_leads.or resp_leads))

/-- **An empty pipeline gets an instruction.** -/
theorem Responds.empty_leads (h : Responds r) :
    LeadsTo (fun t => ¬ Holds (r.st t)) fun t => Holds (r.st t) := by
  have hresp : LeadsTo (Fetches r .resp true) fun t => Holds (r.st t) := by
    refine (LeadsTo.of_next fun t ht => ?_).trans
      ((LeadsTo.of_imp fun _ ht => ht).or (h.idle_leads true))
    have hf := fetches_next ht.empty
    have hkilled := isKilled_of_empty ht.empty
    rw [ht.killed] at hkilled
    rw [ht.state, ht.killed, ICache.next_state_of_resp ht.state, hkilled, Bool.or_true] at hf
    exact hf
  have hfill : LeadsTo (fun t => Fetches r .fillAddr true t ∨ Fetches r .waitMem true t)
      fun t => Holds (r.st t) :=
    (h.fill_leads true).trans ((LeadsTo.of_imp fun _ ht => ht).or (h.idle_leads true))
  refine (((h.idle_leads true).or (h.idle_leads false)).or
    ((h.fetch_leads.or hfill).or (resp_leads.or hresp))).mono (fun t ht => ?_) fun _ ht => ht
  have hof : Fetches r (cache r t).state (cache r t).reqKilled t := ⟨ht, rfl, rfl⟩
  revert hof
  cases (cache r t).state <;> cases (cache r t).reqKilled <;> intro hof <;> simp [hof]

/-- **An instruction retires again and again.** -/
theorem Responds.retires (h : Responds r) : Recurs (RetiresAt r) := by
  intro t
  by_cases hh : Holds (r.st t)
  · exact h.holds_retires t hh
  · exact (h.empty_leads.trans h.holds_retires) t hh

/-! ## Every fill ends -/

/-- The number of instructions between the cache and the end of the pipeline. -/
def unretired (r : machine.Run) (t : ℕ) : ℕ :=
  (live (r.st t) (trace r t)).length + (r.st t).ifu.queue.length

theorem length_name {α : Type*} (reg : Valid α) (n : ℕ) :
    (name reg n).length = reg.valid.toNat := by
  cases h : reg.valid <;> simp [name, h]

/-- What is handed to the decoder comes out of the queue. -/
theorem length_queue_next {g : Trace}
    (hr : c.ifu.icache.respFire (c.ifu.icacheIn (c.ifuIn io)) = false) :
    (g.fresh c io).length + (c.next io).ifu.queue.length ≤ c.ifu.queue.length := by
  have hfire : c.ifu.respFire (c.ifuIn io) = false := hr
  have hnext : (c.next io).ifu.queue = (c.ifu.next (c.ifuIn io)).queue := rfl
  cases hredirect : (c.ifuIn io).redirectValid with
  | true => simp [hnext, IFU.next, Trace.fresh, IFU.delivers, IFU.out, hredirect]
  | false =>
      cases hready : (c.ifuIn io).outReady <;> cases hq : c.ifu.queue <;>
        simp [hnext, IFU.next, Trace.fresh, IFU.delivers, IFU.out, hredirect, hready, hq, hfire,
          Nat.add_comm]

/-- Without an answer of the cache no instruction is added, and one that retires is gone. -/
theorem unretired_next (hr : (cache r t).respFire (cacheIn r t) = false) :
    unretired r (t + 1) + (r.st t).wbuIn.valid.toNat ≤ unretired r t := by
  have hlive := (live_next (i := r.inp t) (g := trace r t) (pipelineInv r t)).length_le
  have hqueue := length_queue_next (g := trace r t) hr
  rw [unretired, unretired, st_succ, trace_succ, live.eq_def (r.st t)]
  simp only [List.length_append, length_name] at hlive ⊢
  omega

/-- **Every fill of the cache ends.** -/
theorem Responds.fills_end (h : Responds r) :
    LeadsTo (fun t => (cache r t).state = .fillAddr ∨ (cache r t).state = .waitMem)
      fun t => (cache r t).fillDone (cacheIn r t) = true := by
  refine LeadsTo.measure (unretired r) fun n => ?_
  have hgo : ∀ t, ((cache r t).state = .fillAddr ∨ (cache r t).state = .waitMem) →
      ¬ (cache r t).fillDone (cacheIn r t) = true →
      ((cache r (t + 1)).state = .fillAddr ∨ (cache r (t + 1)).state = .waitMem) ∧
        unretired r (t + 1) + (r.st t).wbuIn.valid.toNat ≤ unretired r t := by
    intro t hst hdone
    have hne : (cache r t).state ≠ .idle ∧ (cache r t).state ≠ .resp := by
      rcases hst with hst | hst <;> simp [hst]
    have hr : (cache r t).respFire (cacheIn r t) = false := by
      rw [ICache.respFire, ICache.respValid, ICache.reqFire_eq_false hne.1, decide_eq_false hne.2]
      rfl
    refine ⟨?_, unretired_next hr⟩
    rw [cache_succ]
    rcases hst with hst | hst
    · rw [ICache.next_state_of_fillAddr hst]
      split_ifs <;> simp
    · rw [ICache.next_state_of_waitMem hst, if_neg hdone]
      exact .inr rfl
  refine (LeadsTo.meets (p := fun t => ((cache r t).state = .fillAddr ∨
    (cache r t).state = .waitMem) ∧ unretired r t ≤ n)
    (e := fun t => (cache r t).fillDone (cacheIn r t) = true ∨ RetiresAt r t) ?_ ?_).trans ?_
    |>.mono (fun t ht => ⟨ht.1, ht.2.le⟩) fun _ ht => ht
  · exact h.retires.mono fun t ht _ => .inr ht
  · rintro t ⟨hst, hle⟩ hno
    obtain ⟨hst', hcount⟩ := hgo t hst fun hdone => hno (.inl hdone)
    exact ⟨hst', by omega⟩
  · refine LeadsTo.by_cases (fun t => (cache r t).fillDone (cacheIn r t) = true)
      (LeadsTo.of_imp fun t ht => .inl ht.2) (LeadsTo.of_next ?_)
    rintro t ⟨⟨⟨hst, hle⟩, hdone⟩, hno⟩
    obtain ⟨hst', hcount⟩ := hgo t hst hno
    have hv : (r.st t).wbuIn.valid = true := hdone.resolve_left hno
    rw [hv, Bool.toNat_true] at hcount
    exact .inr ⟨hst', by omega⟩

/-- **The core does not stop**: every access and every fill ends, and an instruction retires
again and again. -/
theorem never_stops (h : Responds r) :
    LeadsTo (fun t => Accesses (r.st t)) (fun t => (r.st t).lsu.state = .waitReady) ∧
      LeadsTo (fun t => (cache r t).state = .fillAddr ∨ (cache r t).state = .waitMem)
        (fun t => (cache r t).fillDone (cacheIn r t) = true) ∧
      Recurs (RetiresAt r) :=
  ⟨h.access_ends, h.fills_end, h.retires⟩

/-- The core and its memory, with a program that leaves the memory. -/
theorem never_stops_onMemory :
    LeadsTo (fun t => Accesses ((onMemory (ofWords jumpToTimer)).st t))
        (fun t => ((onMemory (ofWords jumpToTimer)).st t).lsu.state = .waitReady) ∧
      LeadsTo (fun t => (cache (onMemory (ofWords jumpToTimer)) t).state = .fillAddr ∨
          (cache (onMemory (ofWords jumpToTimer)) t).state = .waitMem)
        (fun t => (cache (onMemory (ofWords jumpToTimer)) t).fillDone
          (cacheIn (onMemory (ofWords jumpToTimer)) t) = true) ∧
      Recurs (RetiresAt (onMemory (ofWords jumpToTimer))) :=
  never_stops (onMemory_responds _)

end Core

end Bailuwan
