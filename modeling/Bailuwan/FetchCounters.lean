/-
# What is counted for a fetch request

The predictor looks the `pc` up in every cycle, the cache takes it in some; a request is
accepted in the cycles of `reqFire`.

* The return address stack is driven by the lookups.  `pushes_eq` says how often too often
  it is pushed, and it does one operation for each accepted call or return exactly when
  every such `pc` is accepted in the cycle in which it is looked up
  (`oneStackOperation_iff`).
* The counters of the cache are conditions of their own.  They account for the requests
  exactly when each hit is answered in the cycle in which it is accepted, and the hit rate
  that is printed is the one of the requests if, besides, hits and killed requests do not
  occur together (`countersExact_iff`).
-/
import Mathlib.Algebra.Order.Field.Rat
import Mathlib.Tactic.FieldSimp
import Bailuwan.FetchStream
import Bailuwan.ReturnStack

namespace Bailuwan

open Synchronous AXI4

namespace IFU

section

variable (r : machine.Run)

/-- The cache accepts a request in cycle `t`. -/
def accepts (t : ℕ) : Bool := (r.st t).reqFire (r.inp t)

/-- A request is accepted while the cache is idle and no redirect comes. -/
theorem accepts_eq (t : ℕ) : accepts r t =
    (!(r.inp t).redirectValid && decide ((r.st t).icache.state = .idle)) := rfl

/-- The cache of the fetch unit in the next cycle. -/
theorem icache_step (t : ℕ) :
    (r.st (t + 1)).icache = (r.st t).icache.next ((r.st t).icacheIn (r.inp t)) := by
  rw [r.step t]
  rfl

end

/-! ## The return address stack -/

section Stack

variable (r : machine.Run)

/-- `ras.io.push` -/
def pushes (t : ℕ) : Bool := (r.st t).bpu.isCall (r.st t).pc

/-- `ras.io.pop` -/
def pops (t : ℕ) : Bool := (r.st t).bpu.useRas (r.st t).pc

/-- The accepted requests predicted as calls. -/
def acceptedCall (t : ℕ) : Bool := accepts r t && (r.st t).bpu.isCall (r.st t).pc

/-- The accepted requests predicted as returns while the stack is not empty by its own `empty`, the
signal that gates a pop; at depth 16 it takes a full stack for an empty one. -/
def acceptedRet (t : ℕ) : Bool :=
  accepts r t && ((r.st t).bpu.isRet (r.st t).pc && !(r.st t).bpu.ras.empty)

/-- **The statement about the stack**: one operation for each accepted call and each accepted
return, and none while the fetch unit waits or is being redirected. -/
structure OneStackOperation : Prop where
  pushes : ∀ t, count (pushes r) 0 t = count (acceptedCall r) 0 t
  pops : ∀ t, count (pops r) 0 t = count (acceptedRet r) 0 t
  quiet : ∀ t, accepts r t = false → IFU.pushes r t = false ∧ IFU.pops r t = false

/-- In cycle `t` a call, or a return with something on the stack, is at the `pc`. -/
def Looks (t : ℕ) : Prop :=
  (r.st t).bpu.isCall (r.st t).pc = true ∨ (r.st t).bpu.useRas (r.st t).pc = true

variable {r}

/-- The pushes are those of the accepted calls, and one more for each cycle in which a call
waits. -/
theorem pushes_eq (t : ℕ) : count (acceptedCall r) 0 t +
    count (fun u => !accepts r u && (r.st u).bpu.isCall (r.st u).pc) 0 t =
      count (pushes r) 0 t := by
  refine (count_add_count_iff ..).mpr (fun u => ?_) t
  rw [acceptedCall, pushes]
  cases accepts r u <;> simp

/-- The stack is popped by the accepted returns and by those that are asked for again. -/
theorem pops_eq (t : ℕ) : count (acceptedRet r) 0 t +
    count (fun u => !accepts r u && (r.st u).bpu.useRas (r.st u).pc) 0 t =
      count (pops r) 0 t := by
  refine (count_add_count_iff ..).mpr (fun u => ?_) t
  rw [acceptedRet, pops, BPU.useRas]
  cases accepts r u <;> simp

/-- **One operation for each call and return, if they never wait**: the counts of the stack
agree with the accepted requests exactly when a call or a return is looked up only in
cycles in which the cache is idle and no redirect arrives. -/
theorem oneStackOperation_iff (r : machine.Run) :
    OneStackOperation r ↔
      ∀ t, Looks r t → (r.st t).icache.state = .idle ∧ (r.inp t).redirectValid = false := by
  have hacc : ∀ t, ((r.st t).icache.state = .idle ∧ (r.inp t).redirectValid = false) ↔
      accepts r t = true := by
    intro t
    rw [accepts_eq, Bool.and_eq_true, Bool.not_eq_true', decide_eq_true_eq]
    exact and_comm
  constructor
  · intro h t hlook
    rw [hacc]
    by_contra hno
    obtain ⟨hpush, hpop⟩ := h.quiet t (by simpa using hno)
    rcases hlook with hcall | hret
    · exact absurd (hcall.symm.trans hpush) (by decide)
    · exact absurd (hret.symm.trans hpop) (by decide)
  · intro h
    -- no cycle in which a call or a return waits
    have hcall : ∀ t, pushes r t = true → accepts r t = true :=
      fun t hp => (hacc t).mp (h t (Or.inl hp))
    have hret : ∀ t, pops r t = true → accepts r t = true :=
      fun t hp => (hacc t).mp (h t (Or.inr hp))
    refine ⟨(count_eq_count_iff ..).mpr fun t => ?_, (count_eq_count_iff ..).mpr fun t => ?_,
      fun t hno => ⟨?_, ?_⟩⟩
    · have := hcall t
      rw [acceptedCall]
      rw [pushes] at this ⊢
      cases hc : (r.st t).bpu.isCall (r.st t).pc
      · simp
      · simp [this hc]
    · have := hret t
      show pops r t = (accepts r t && pops r t)
      cases hc : pops r t
      · simp
      · simp [this hc]
    · by_contra hp
      exact absurd (hno.symm.trans (hcall t (by simpa using hp))) (by decide)
    · by_contra hp
      exact absurd (hno.symm.trans (hret t (by simpa using hp))) (by decide)

end Stack

/-- The state after reset; the registers that reset leaves alone are zero. -/
def resetState : IFU where
  icache :=
    { state := .idle, fillAddr := 0, fillUser := ⟨false, 0⟩, fillCnt := 0, reqKilled := false
      err := false, validStorage := fun _ => false, tagStorage := fun _ => 0
      dataStorage := fun _ _ => 0 }
  pc := resetVector
  bpu := ⟨⟨fun _ => false, fun _ => 0, fun _ => 0, fun _ => .jump⟩, ⟨fun _ => 0, 0⟩⟩
  queue := []

theorem resetState_isReset : resetState.IsReset :=
  ⟨⟨rfl, rfl, rfl, rfl, fun _ => rfl⟩, rfl, ⟨⟨fun _ => rfl⟩, rfl⟩, rfl⟩

/-- A cycle in which nothing happens around the fetch unit. -/
def quietIn : IFUIn := ⟨false, false, 0, false, ⟨false, 0, 0, .jump⟩, {}⟩

/-- The instruction after the first one is trained as a call while the first one is being
fetched. -/
def waitingCall : machine.Run := machine.run resetState resetState_isReset fun t =>
  { quietIn with btbW := ⟨decide (t = 0), 0x30000004, 0x30000100, .call⟩ }

/-- The call is pushed while it waits for the cache. -/
theorem waitingCall_pushed : ¬ ∀ r : machine.Run, OneStackOperation r := by
  intro h
  have hquiet := ((h waitingCall).quiet 1 (by decide)).1
  exact absurd hquiet (by decide)

/-! ## The counters of the cache -/

section Counters

variable (r : machine.Run)

/-- `icache_hit` counts this cycle. -/
def icacheHit (t : ℕ) : Bool :=
  let i := (r.st t).icacheIn (r.inp t)
  decide ((r.st t).icache.state = .idle) && i.req.valid && i.respReady && (r.st t).icache.hit i

/-- `icache_miss` counts this cycle. -/
def icacheMiss (t : ℕ) : Bool :=
  let i := (r.st t).icacheIn (r.inp t)
  decide ((r.st t).icache.state = .idle) && i.req.valid && !(r.st t).icache.hit i

/-- `ifu_fetched` counts this cycle. -/
def ifuFetched (t : ℕ) : Bool := (r.st t).respFire (r.inp t)

/-! ### What happens to a request -/

/-- Before cycle `t`, the latest request has asked the memory for its line. -/
def asked : ℕ → Bool := r.watch false fun b f i =>
  if f.reqFire i then false else b || f.memOut.ar.valid

/-- The request accepted in `a` is filled: it asks the memory for its line. -/
def Filled (a : ℕ) : Prop :=
  ∃ t, LastAt (fun u => accepts r u = true) a t ∧ (r.st t).memOut.ar.valid = true

/-- The request offered in cycle `t` is in its line. -/
def hits (t : ℕ) : Bool := (r.st t).icache.hit ((r.st t).icacheIn (r.inp t))

/-- The accepted requests that hit. -/
def acceptedHit (t : ℕ) : Bool := accepts r t && hits r t

/-- A request ends without a response: it was killed. -/
def drops (t : ℕ) : Bool :=
  (decide ((r.st t).icache.state = .waitMem) &&
      (r.st t).icache.fillDone ((r.st t).icacheIn (r.inp t)) ||
    decide ((r.st t).icache.state = .resp)) &&
  (r.st t).icache.isKilled ((r.st t).icacheIn (r.inp t))

/-- In cycle `t` an earlier request is in flight. -/
def inFlight (t : ℕ) : Bool := !decide ((r.st t).icache.state = .idle)

/-- In cycle `t` an earlier request is in flight that hit. -/
def hitInFlight (t : ℕ) : Bool := decide ((r.st t).icache.state = .resp) && !asked r t

/-! ### The hit rate -/

/-- `hit_rate` as `dump_perf_counters` computes it in cycle `t`, a rational number. -/
def hitRate (t : ℕ) : ℚ := count (icacheHit r) 0 t / count (ifuFetched r) 0 t

/-- The fraction of hits among the requests accepted before cycle `t`, but for the one in
flight. -/
def exactRate (t : ℕ) : ℚ :=
  (count (acceptedHit r) 0 t - (hitInFlight r t).toNat : ℚ) /
    (count (accepts r) 0 t - (inFlight r t).toNat)

/-- **The statement about the counters**: hits and misses partition the accepted requests, each
request counts as what happens to it, and the hit rate is at most 1 and exact in every cycle;
where nothing has been fetched no hit is counted, so that it is not infinite. -/
structure CountersExact : Prop where
  partition : ∀ t,
    count (icacheHit r) 0 t + count (icacheMiss r) 0 t = count (accepts r) 0 t
  own : ∀ a, accepts r a = true →
    (icacheHit r a = true ↔ ¬ Filled r a) ∧ (icacheMiss r a = true ↔ Filled r a)
  rate_le : ∀ t, hitRate r t ≤ 1 ∧
    (count (ifuFetched r) 0 t = 0 → count (icacheHit r) 0 t = 0)
  rate : ∀ t, count (ifuFetched r) 0 t ≠ 0 → hitRate r t = exactRate r t

/-- Every request that is accepted and hits finds room in the queue and no kill from the
cycle before. -/
def HitsAnswered : Prop :=
  ∀ a, accepts r a = true → hits r a = true →
    (r.st a).enqReady = true ∧ (r.st a).icache.reqKilled = false

variable {r} {a t : ℕ}

/-- `icache_hit` counts an accepted hit only while the queue has room. -/
theorem icacheHit_eq (t : ℕ) :
    icacheHit r t = (accepts r t && ((r.st t).enqReady && hits r t)) := by
  rw [icacheHit, accepts_eq, hits]
  show (_ && !(r.inp t).redirectValid && (r.st t).enqReady && _) = _
  cases (r.inp t).redirectValid <;> cases decide ((r.st t).icache.state = .idle) <;> simp

/-- `icache_miss` counts every accepted miss. -/
theorem icacheMiss_eq (t : ℕ) : icacheMiss r t = (accepts r t && !hits r t) := by
  rw [icacheMiss, accepts_eq, hits]
  show (_ && !(r.inp t).redirectValid && _) = _
  cases (r.inp t).redirectValid <;> cases decide ((r.st t).icache.state = .idle) <;> simp

theorem idle_of_accepts (h : accepts r t = true) : (r.st t).icache.state = .idle :=
  ICache.state_of_reqFire _ _ h

theorem no_redirect_of_accepts (h : accepts r t = true) : (r.inp t).redirectValid = false := by
  rw [accepts_eq, Bool.and_eq_true, Bool.not_eq_true'] at h
  exact h.1

/-- The states after an accepted request. -/
theorem state_of_accepts (h : accepts r t = true) : (r.st (t + 1)).icache.state =
    if hits r t then (if ifuFetched r t then .idle else .resp) else .fillAddr := by
  have hkill : ((r.st t).icacheIn (r.inp t)).kill = false := no_redirect_of_accepts h
  rw [icache_step, ICache.next_state_of_reqFire h, hkill, if_neg (by decide)]
  rfl

/-- A request that is accepted is answered at once if it hits, there is room, and the cycle
before has not been killed. -/
theorem ifuFetched_of_accepts (h : accepts r t = true) : ifuFetched r t =
    (hits r t && !(r.st t).icache.reqKilled && (r.st t).enqReady) := by
  have hkill : ((r.st t).icacheIn (r.inp t)).kill = false := no_redirect_of_accepts h
  have hfire : (r.st t).icache.reqFire ((r.st t).icacheIn (r.inp t)) = true := h
  show ((r.st t).icache.respValid _ && (r.st t).enqReady) = _
  rw [ICache.respValid, ICache.isKilled, hkill, hfire, idle_of_accepts h, hits]
  simp

/-- Only `s_resp` answers without accepting. -/
theorem resp_of_ifuFetched (h : accepts r t = false) (hf : ifuFetched r t = true) :
    (r.st t).icache.state = .resp := by
  have hfire : (r.st t).icache.reqFire ((r.st t).icacheIn (r.inp t)) = false := h
  have hvalid : (r.st t).icache.respValid ((r.st t).icacheIn (r.inp t)) = true :=
    (Bool.and_eq_true_iff.mp hf).1
  rw [ICache.respValid, hfire, Bool.false_and, Bool.false_or, Bool.and_eq_true,
    decide_eq_true_eq] at hvalid
  exact hvalid.1

/-- The cache asks the memory in `fill_addr` only. -/
theorem arValid_iff : (r.st t).memOut.ar.valid = true ↔ (r.st t).icache.state = .fillAddr := by
  rw [memOut, ICache.memOut_arValid, decide_eq_true_eq]

/-- A request that misses goes on to ask the memory. -/
theorem filled_of_miss (h : accepts r a = true) (hmiss : hits r a = false) : Filled r a := by
  have hstate := state_of_accepts h
  rw [hmiss, if_neg (by decide)] at hstate
  refine ⟨a + 1, (LastAt.self h).succ ?_, arValid_iff.mpr hstate⟩
  intro hacc
  rw [idle_of_accepts hacc] at hstate
  exact absurd hstate (by decide)

/-- A request that hits never asks the memory. -/
theorem not_filled_of_hit (h : accepts r a = true) (hhit : hits r a = true) : ¬ Filled r a := by
  rintro ⟨t, hlast, har⟩
  rw [arValid_iff] at har
  have hno : ¬ accepts r t = true := by
    intro hacc
    rw [idle_of_accepts hacc] at har
    exact absurd har (by decide)
  -- until the next request the cache is idle or has the answer
  have hquiet : (r.st t).icache.state = .idle ∨ (r.st t).icache.state = .resp := by
    refine hlast.since hno (fun _ => ?_) ?_
    · rw [state_of_accepts h, hhit, if_pos rfl]
      cases ifuFetched r a <;> simp
    · intro u _ _ hu _ ih
      rw [icache_step]
      rcases ih with hidle | hresp
      · exact Or.inl (ICache.next_state_of_idle hidle (Bool.eq_false_of_not_eq_true hu))
      · rw [ICache.next_state_of_resp hresp]
        split
        · exact Or.inl rfl
        · exact Or.inr rfl
  rcases hquiet with hq | hq <;> rw [hq] at har <;> exact absurd har (by decide)

/-- A request is filled if and only if it misses. -/
theorem filled_iff (h : accepts r a = true) : Filled r a ↔ hits r a = false := by
  constructor
  · intro hf
    by_contra hhit
    exact not_filled_of_hit h (by simpa using hhit) hf
  · exact filled_of_miss h

/-! ### Requests that end -/

/-- A request ends in cycle `t`, with a response or without. -/
def ends (r : machine.Run) (t : ℕ) : Bool := ifuFetched r t || drops r t

/-- A request that hit ends in cycle `t`. -/
def endsHit (r : machine.Run) (t : ℕ) : Bool := ends r t && (accepts r t || !asked r t)

theorem accepts_eq_false (h : (r.st t).icache.state ≠ .idle) : accepts r t = false :=
  ICache.reqFire_eq_false h

/-- Between two requests one cycle after the other is looked at. -/
theorem asked_succ (t : ℕ) : asked r (t + 1) = if accepts r t then false
    else asked r t || decide ((r.st t).icache.state = .fillAddr) := r.watch_succ ..

/-- Nothing is dropped while the cache is idle or asks for a line. -/
theorem drops_eq_false (h : (r.st t).icache.state ≠ .waitMem)
    (h' : (r.st t).icache.state ≠ .resp) : drops r t = false := by
  simp [drops, h, h']

/-- A response in another cycle than that of its request is given in `s_resp`. -/
theorem ifuFetched_eq_false (h : accepts r t = false) (h' : (r.st t).icache.state ≠ .resp) :
    ifuFetched r t = false := by
  by_contra hf
  exact h' (resp_of_ifuFetched h (by simpa using hf))

/-- What is filled has asked the memory. -/
theorem asked_of_waitMem (t : ℕ) : (r.st t).icache.state = .waitMem → asked r t = true := by
  induction t with
  | zero =>
      intro hs
      rw [r.start.icache.state] at hs
      exact absurd hs (by decide)
  | succ t ih =>
      intro hs
      cases hacc : accepts r t with
      | true =>
          rw [state_of_accepts hacc] at hs
          cases hhit : hits r t <;> cases hf : ifuFetched r t <;> simp [hhit, hf] at hs
      | false =>
          rw [asked_succ, hacc, if_neg (by decide), Bool.or_eq_true, decide_eq_true_eq]
          rw [icache_step] at hs
          rcases ICache.state_of_next_waitMem hs with h | h
          · exact .inr h
          · exact .inl (ih h)

/-- The states after a cycle in which a request in `s_wait_mem` ends or goes on. -/
theorem state_of_waitMem (h : (r.st t).icache.state = .waitMem) :
    (ends r t = true → (r.st (t + 1)).icache.state = .idle) ∧
      (ends r t = false → (r.st (t + 1)).icache.state = .waitMem ∨
        (r.st (t + 1)).icache.state = .resp) := by
  have hf : ifuFetched r t = false :=
    ifuFetched_eq_false (accepts_eq_false (by simp [h])) (by simp [h])
  rw [icache_step, ICache.next_state_of_waitMem h]
  simp only [ends, hf, drops, h]
  cases (r.st t).icache.fillDone ((r.st t).icacheIn (r.inp t)) <;>
    cases (r.st t).icache.isKilled ((r.st t).icacheIn (r.inp t)) <;> simp

/-- The states after a cycle in which a request in `s_resp` ends or goes on. -/
theorem state_of_resp (h : (r.st t).icache.state = .resp) : (r.st (t + 1)).icache.state =
    if ends r t then .idle else .resp := by
  have hf : ifuFetched r t = (r.st t).icache.respFire ((r.st t).icacheIn (r.inp t)) := rfl
  rw [icache_step, ICache.next_state_of_resp h, ends, hf, drops, h]
  simp

/-- A request that ends in its own cycle ends with its response. -/
theorem ends_of_accepts (h : accepts r t = true) : ends r t = ifuFetched r t := by
  have hs := idle_of_accepts h
  rw [ends, drops_eq_false (by simp [hs]) (by simp [hs]), Bool.or_false]

/-- Nothing but a request that is accepted then ends while the cache is idle or asks for a line. -/
theorem ends_eq_false (hacc : accepts r t = false) (h : (r.st t).icache.state ≠ .waitMem)
    (h' : (r.st t).icache.state ≠ .resp) : ends r t = false := by
  rw [ends, drops_eq_false h h', ifuFetched_eq_false hacc h', Bool.or_false]

/-- Without a request an idle cache stays idle. -/
theorem state_of_idle (hs : (r.st t).icache.state = .idle) (hacc : accepts r t = false) :
    (r.st (t + 1)).icache.state = .idle := by
  rw [icache_step]
  exact ICache.next_state_of_idle hs hacc

/-- **The accepted requests** are those that have ended and the one in flight. -/
theorem count_ends (t : ℕ) :
    count (ends r) 0 t + (inFlight r t).toNat = count (accepts r) 0 t := by
  induction t with
  | zero => simp [inFlight, r.start.icache.state]
  | succ t ih =>
      rw [count_succ _ (Nat.zero_le t), count_succ _ (Nat.zero_le t), ← ih, inFlight, inFlight]
      cases hs : (r.st t).icache.state with
      | idle =>
          cases hacc : accepts r t with
          | true =>
              rw [state_of_accepts hacc, ends_of_accepts hacc]
              have hf := ifuFetched_of_accepts hacc
              cases hhit : hits r t <;> cases hr : ifuFetched r t <;> simp_all
          | false =>
              rw [state_of_idle hs hacc, ends_eq_false hacc (by simp [hs]) (by simp [hs])]
              simp
      | fillAddr =>
          have hacc := accepts_eq_false (r := r) (t := t) (by simp [hs])
          have hnext : (r.st (t + 1)).icache.state ≠ .idle := by
            rw [icache_step, ICache.next_state_of_fillAddr hs]
            split <;> simp
          rw [ends_eq_false hacc (by simp [hs]) (by simp [hs]), hacc]
          simp [hnext]
      | waitMem =>
          rw [accepts_eq_false (r := r) (t := t) (by simp [hs])]
          obtain ⟨hend, hon⟩ := state_of_waitMem hs
          cases he : ends r t with
          | true => simp [hend he]
          | false => rcases hon he with h | h <;> simp [h]
      | resp =>
          rw [accepts_eq_false (r := r) (t := t) (by simp [hs]), state_of_resp hs]
          cases ends r t <;> simp

/-- **The accepted hits** are those that have ended and the one in flight. -/
theorem count_endsHit (t : ℕ) :
    count (endsHit r) 0 t + (hitInFlight r t).toNat = count (acceptedHit r) 0 t := by
  induction t with
  | zero => simp [hitInFlight, r.start.icache.state]
  | succ t ih =>
      rw [count_succ _ (Nat.zero_le t), count_succ _ (Nat.zero_le t), ← ih, hitInFlight,
        hitInFlight, asked_succ, endsHit, acceptedHit]
      cases hs : (r.st t).icache.state with
      | idle =>
          cases hacc : accepts r t with
          | true =>
              rw [state_of_accepts hacc, ends_of_accepts hacc]
              have hf := ifuFetched_of_accepts hacc
              cases hhit : hits r t <;> cases hr : ifuFetched r t <;> simp_all
          | false =>
              rw [state_of_idle hs hacc, ends_eq_false hacc (by simp [hs]) (by simp [hs])]
              simp
      | fillAddr =>
          have hacc := accepts_eq_false (r := r) (t := t) (by simp [hs])
          rw [ends_eq_false hacc (by simp [hs]) (by simp [hs]), hacc]
          simp
      | waitMem =>
          rw [accepts_eq_false (r := r) (t := t) (by simp [hs]), asked_of_waitMem t hs]
          simp
      | resp =>
          rw [accepts_eq_false (r := r) (t := t) (by simp [hs]), state_of_resp hs]
          cases ends r t <;> simp

/-- The exact rate, from the requests that have ended. -/
theorem exactRate_eq (t : ℕ) :
    exactRate r t = (count (endsHit r) 0 t : ℚ) / count (ends r) 0 t := by
  rw [exactRate, ← count_ends, ← count_endsHit]
  push_cast
  rw [add_sub_cancel_right, add_sub_cancel_right]

/-- A response ends its request. -/
theorem count_ifuFetched_le (t : ℕ) : count (ifuFetched r) 0 t ≤ count (ends r) 0 t :=
  count_le_count (fun u hu => by rw [ends, hu, Bool.true_or]) 0 t

/-! ### Where the counters are exact -/

/-- While hits are answered at once, whatever waits for a response has asked the memory. -/
theorem asked_of_waiting (h : HitsAnswered r) (t : ℕ) :
    (r.st t).icache.state = .waitMem ∨ (r.st t).icache.state = .resp → asked r t = true := by
  induction t with
  | zero =>
      have hidle : (r.st 0).icache.state = .idle := r.start.icache.state
      rw [hidle]
      simp
  | succ t ih =>
      intro hwait
      cases hacc : accepts r t with
      | true =>
          rw [state_of_accepts hacc] at hwait
          cases hhit : hits r t with
          | false => simp [hhit] at hwait
          | true =>
              obtain ⟨hroom, hlive⟩ := h t hacc hhit
              have hf : ifuFetched r t = true := by
                rw [ifuFetched_of_accepts hacc, hhit, hroom, hlive]
                rfl
              simp [hhit, hf] at hwait
      | false =>
          rw [asked_succ, hacc, if_neg (by decide), Bool.or_eq_true, decide_eq_true_eq]
          have hfire : (r.st t).icache.reqFire ((r.st t).icacheIn (r.inp t)) = false := hacc
          rw [icache_step] at hwait
          cases hs : (r.st t).icache.state with
          | idle =>
              rw [ICache.next_state_of_idle hs hfire] at hwait
              simp at hwait
          | fillAddr => exact Or.inr rfl
          | waitMem => exact Or.inl (ih (Or.inl hs))
          | resp => exact Or.inl (ih (Or.inr hs))

/-- Then the hits counted are the hits that end, and they end with a response. -/
theorem endsHit_eq (h : HitsAnswered r) (t : ℕ) :
    endsHit r t = icacheHit r t ∧ (icacheHit r t = true → ifuFetched r t = true) := by
  rw [icacheHit_eq, endsHit]
  cases hacc : accepts r t with
  | true =>
      rw [ends_of_accepts hacc, ifuFetched_of_accepts hacc]
      cases hhit : hits r t with
      | false => simp
      | true =>
          obtain ⟨hroom, hlive⟩ := h t hacc hhit
          simp [hroom, hlive]
  | false =>
      refine ⟨?_, by simp⟩
      cases he : ends r t with
      | false => simp
      | true =>
          -- what ends later has been in `s_wait_mem` or `s_resp`
          have hwait : (r.st t).icache.state = .waitMem ∨ (r.st t).icache.state = .resp := by
            by_contra hno
            rw [not_or] at hno
            rw [ends_eq_false hacc hno.1 hno.2] at he
            exact absurd he (by decide)
          simp [asked_of_waiting h t hwait]

/-- The hits counted, and those that have ended, if hits are answered at once. -/
theorem HitsAnswered.count_eq (h : HitsAnswered r) (t : ℕ) :
    count (endsHit r) 0 t = count (icacheHit r) 0 t :=
  (count_eq_count_iff ..).mpr (fun u => (endsHit_eq h u).1) t

/-- Hits that are answered are no more than the answers. -/
theorem HitsAnswered.count_le (h : HitsAnswered r) (t : ℕ) :
    count (icacheHit r) 0 t ≤ count (ifuFetched r) 0 t :=
  count_le_count (fun u hu => (endsHit_eq h u).2 hu) 0 t

/-- Where every hit is answered, and either none is accepted or nothing is dropped, the printed rate
is the exact one. -/
theorem CountersExact.of_hitsAnswered (h : HitsAnswered r)
    (hkind : (∀ t, acceptedHit r t = false) ∨ ∀ t, drops r t = false) : CountersExact r := by
  have hroom : ∀ t, accepts r t = true → hits r t = true → (r.st t).enqReady = true :=
    fun t h1 h2 => (h t h1 h2).1
  refine ⟨(count_add_count_iff ..).mpr fun t => ?_, fun a hacc => ?_, fun t => ⟨?_, ?_⟩,
    fun t _ => ?_⟩
  · have ht := hroom t
    rw [icacheHit_eq, icacheMiss_eq]
    cases hacc : accepts r t <;> cases hhit : hits r t <;> simp_all
  · have ha := hroom a hacc
    rw [filled_iff hacc, icacheHit_eq, icacheMiss_eq, hacc]
    cases hhit : hits r a <;> simp_all
  · exact div_le_one_of_le₀ (by exact_mod_cast h.count_le t) (Nat.cast_nonneg _)
  · intro hzero
    have hle := h.count_le t
    omega
  · rw [exactRate_eq, hitRate, h.count_eq]
    rcases hkind with hno | hno
    · have hzero : count (icacheHit r) 0 t = 0 := by
        refine (count_eq_zero_iff ..).mpr fun u _ _ => ?_
        have hu := hno u
        rw [acceptedHit] at hu
        rw [icacheHit_eq]
        cases hacc : accepts r u <;> cases hhit : hits r u <;> simp_all
      rw [hzero, Nat.cast_zero, zero_div, zero_div]
    · have hall : count (ends r) 0 t = count (ifuFetched r) 0 t :=
        (count_eq_count_iff ..).mpr (fun u => by rw [ends, hno u, Bool.or_false]) t
      rw [hall]

/-- Two fractions with the same denominator, one of them too large. -/
theorem div_ne_div {a b f e : ℕ} (hf : f ≠ 0) (hle : f ≤ e) (h : a < b ∨ a ≤ b ∧ b ≠ 0 ∧ f < e) :
    (b : ℚ) / f ≠ (a : ℚ) / e := by
  intro heq
  have hf' : (f : ℚ) ≠ 0 := Nat.cast_ne_zero.mpr hf
  have he' : (e : ℚ) ≠ 0 := Nat.cast_ne_zero.mpr (by omega)
  rw [div_eq_div_iff hf' he'] at heq
  have hmul : b * e = a * f := by exact_mod_cast heq
  rcases h with hlt | ⟨hab, hb, hlt⟩
  · have h1 : a * f ≤ a * e := Nat.mul_le_mul_left a hle
    have h2 : a * e < b * e := Nat.mul_lt_mul_of_pos_right hlt (by omega)
    omega
  · have h1 : a * f ≤ b * f := Nat.mul_le_mul_right f hab
    have h2 : b * f < b * e := Nat.mul_lt_mul_of_pos_left hlt (by omega)
    omega

/-- Exact counters have counted every hit: the queue had room. -/
theorem CountersExact.room (h : CountersExact r) {a : ℕ} (hacc : accepts r a = true)
    (hhit : hits r a = true) : (r.st a).enqReady = true := by
  have hpart := (count_add_count_iff ..).mp h.partition a
  rw [icacheHit_eq, icacheMiss_eq, hacc, hhit] at hpart
  cases hr : (r.st a).enqReady
  · simp [hr] at hpart
  · rfl

/-- If all hits find room, the accepted hits are counted. -/
theorem CountersExact.count_eq (h : CountersExact r) (t : ℕ) :
    count (icacheHit r) 0 t = count (acceptedHit r) 0 t := by
  refine (count_eq_count_iff ..).mpr (fun u => ?_) t
  have hu := h.room (a := u)
  rw [icacheHit_eq, acceptedHit]
  cases hacc : accepts r u <;> cases hhit : hits r u <;> simp_all

/-- So every hit is answered. -/
theorem CountersExact.hitsAnswered (h : CountersExact r) : HitsAnswered r := by
  intro a hacc hhit
  refine ⟨h.room hacc hhit, ?_⟩
  by_contra hkilled
  -- the hit counts in the next cycle and has not ended
  have hs := idle_of_accepts hacc
  have hf : ifuFetched r a = false := by
    rw [ifuFetched_of_accepts hacc]
    simp [hkilled]
  have hend : ends r a = false := by
    rw [ends, hf, drops_eq_false (by simp [hs]) (by simp [hs])]
    rfl
  have hlt : count (endsHit r) 0 (a + 1) < count (icacheHit r) 0 (a + 1) := by
    have hcount := count_endsHit (r := r) (a + 1)
    have hflight : hitInFlight r (a + 1) = true := by
      rw [hitInFlight, state_of_accepts hacc, asked_succ, hacc, hhit, hf]
      rfl
    rw [h.count_eq, ← hcount, hflight]
    exact Nat.lt_succ_self _
  obtain ⟨-, hzero⟩ := h.rate_le (a + 1)
  have hpos : count (ifuFetched r) 0 (a + 1) ≠ 0 := fun h0 => by
    have := hzero h0
    omega
  have hrate := h.rate (a + 1) hpos
  rw [hitRate, exactRate_eq] at hrate
  exact div_ne_div hpos (count_ifuFetched_le _) (.inl hlt) hrate

/-- An event that was is counted. -/
theorem count_pos {p : ℕ → Bool} {u t : ℕ} (hu : p u = true) (hut : u < t) : count p 0 t ≠ 0 := by
  intro h
  rw [(count_eq_zero_iff ..).mp h u (Nat.zero_le u) hut] at hu
  exact absurd hu (by decide)

/-- What is dropped is not fetched. -/
theorem count_ends_eq (t : ℕ) :
    count (ifuFetched r) 0 t + count (drops r) 0 t = count (ends r) 0 t := by
  refine (count_add_count_iff ..).mpr (fun u => ?_) t
  rw [ends]
  cases hd : drops r u with
  | false => simp
  | true =>
      have hkill := (Bool.and_eq_true_iff.mp hd).2
      have hf : ifuFetched r u = false := by
        show (r.st u).icache.respFire _ = false
        rw [ICache.respFire, ICache.respValid, hkill]
        simp
      rw [hf]
      rfl

/-- With exact counters no hit is accepted, or no request is dropped. -/
theorem CountersExact.kind (h : CountersExact r) :
    (∀ t, acceptedHit r t = false) ∨ ∀ t, drops r t = false := by
  by_contra hboth
  rw [not_or, not_forall, not_forall] at hboth
  obtain ⟨⟨a, ha⟩, d, hd⟩ := hboth
  rw [Bool.not_eq_false] at ha hd
  -- a cycle after the hit and after the request that is dropped
  have hans := h.hitsAnswered
  have hpos : count (icacheHit r) 0 (max a d + 1) ≠ 0 := by
    rw [h.count_eq]
    exact count_pos ha (by omega)
  have hdrop : count (drops r) 0 (max a d + 1) ≠ 0 := count_pos hd (by omega)
  have hends := count_ends_eq (r := r) (max a d + 1)
  have hle := hans.count_le (max a d + 1)
  have hrate := h.rate (max a d + 1) (by omega)
  rw [hitRate, exactRate_eq, hans.count_eq] at hrate
  exact div_ne_div (by omega) (by omega) (.inr ⟨le_rfl, hpos, by omega⟩) hrate

/-- **The counters account for the requests if hits are answered at once and either no request
hits or none is killed, and only then.** -/
theorem countersExact_iff (r : machine.Run) : CountersExact r ↔
    HitsAnswered r ∧ ((∀ t, acceptedHit r t = false) ∨ ∀ t, drops r t = false) :=
  ⟨fun h => ⟨h.hitsAnswered, h.kind⟩, fun h => CountersExact.of_hitsAnswered h.1 h.2⟩

end Counters

/-- A loop of five instructions, of which the first line is fetched again after a redirect while
nothing is taken from the queue any more. -/
def fullQueue : machine.Run := machine.run resetState resetState_isReset fun t =>
  { quietIn with
    outReady := decide (t ≤ 17)
    redirectValid := decide (t = 17)
    redirectTarget := resetVector
    mem := { arReady := true
             r := ⟨true, { last := decide (t = 5 ∨ t = 15) }⟩ } }

/-- The hit that finds the queue full is not counted. -/
theorem fullQueue_miscounted : ¬ ∀ r : machine.Run, CountersExact r := by
  intro h
  have hpart := (h fullQueue).partition 24
  exact absurd hpart (by decide +kernel)

end IFU

end Bailuwan
