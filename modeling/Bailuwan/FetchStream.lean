/-
# The fetch stream

A fetch is a `pc` with the prediction made for it.  The fetches still in the fetch
unit (`IFU.inflight`: the queue, then the request in the cache) are linked: each one
starts where its predecessor predicts, and the last one predicts the current `pc`.
`inflight_next` is one cycle of that stream, and `stream_intact` the account of whole runs,
where the requests are told apart by the cycle in which the cache accepted them.
-/
import Bailuwan.ICacheFill
import Bailuwan.IFU

namespace Bailuwan

open Synchronous

/-! ## Fetches -/

/-- A fetched `pc` and the prediction that goes with it. -/
structure Fetch where
  pc : Word
  predictTaken : Bool
  predictTarget : Word
  deriving DecidableEq, Repr

/-- Where the fetch after this one starts. -/
def Fetch.dnpc (x : Fetch) : Word := if x.predictTaken then x.predictTarget else x.pc + 4

/-- The `pc` an instruction was fetched at, with the prediction. -/
def IFUOut.fetch (o : IFUOut) : Fetch := ⟨o.pc, o.predictTaken, o.predictTarget⟩

/-- The fetches start at `p`, follow their predictions and end before `q`. -/
def Links (p : Word) : List Fetch → Word → Prop
  | [], q => p = q
  | x :: l, q => x.pc = p ∧ Links x.dnpc l q

@[simp] theorem links_nil {p q : Word} : Links p [] q ↔ p = q := Iff.rfl

@[simp] theorem links_cons {p q : Word} {x : Fetch} {l : List Fetch} :
    Links p (x :: l) q ↔ x.pc = p ∧ Links x.dnpc l q := Iff.rfl

/-- Two stretches are linked where the first one ends. -/
theorem links_append {p q : Word} {l l' : List Fetch} :
    Links p (l ++ l') q ↔ ∃ m, Links p l m ∧ Links m l' q := by
  induction l generalizing p with
  | nil => simp
  | cons x l ih => simp [ih, and_assoc]

/-- The fetches start at `p` and follow their predictions. -/
def FollowsPrediction (p : Word) (l : List Fetch) : Prop := ∃ q, Links p l q

namespace IFU

variable {f : IFU} {i : IFUIn}

/-! ## What is in flight -/

/-- The request in the cache: the one being served, unless it was killed. -/
def pending (f : IFU) : List Fetch :=
  if f.icache.state = .idle ∨ f.icache.reqKilled = true then []
  else [⟨f.icache.fillAddr, f.icache.fillUser.predictTaken, f.icache.fillUser.predictTarget⟩]

/-- The fetches that have been requested and not delivered, oldest first. -/
def inflight (f : IFU) : List Fetch := f.queue.map IFUOut.fetch ++ f.pending

/-- The fetch requested in this cycle. -/
def request (f : IFU) : Fetch := ⟨f.pc, f.predictTaken, f.predictTarget⟩

@[simp] theorem icacheIn_kill : (f.icacheIn i).kill = i.redirectValid := rfl

/-- Without a redirect the next address is the one the request predicts. -/
theorem dnpc_of_reqFire (hr : i.redirectValid = false) (h : f.reqFire i = true) :
    f.dnpc i = f.request.dnpc := by
  cases hp : f.predictTaken <;> simp [dnpc, hr, h, request, Fetch.dnpc, hp]

/-- Fetches that lead to the current `pc` lead to the next one with the request made there. -/
theorem links_request {p : Word} {l : List Fetch} (hr : i.redirectValid = false)
    (h : Links p l f.pc) :
    Links p (l ++ if f.reqFire i then [f.request] else []) (f.next i).pc := by
  refine links_append.mpr ⟨f.pc, h, ?_⟩
  cases hq : f.reqFire i with
  | true => exact ⟨rfl, (dnpc_of_reqFire hr hq).symm⟩
  | false => simp [IFU.next, dnpc, hr, hq]

/-- The response is to the request of this cycle in the idle state, else to the pending
one. -/
theorem enqBits_fetch : (f.enqBits i).fetch =
    if f.icache.state = .idle then f.request
    else ⟨f.icache.fillAddr, f.icache.fillUser.predictTaken,
      f.icache.fillUser.predictTarget⟩ := by
  by_cases hs : f.icache.state = .idle <;>
    simp [enqBits, IFUOut.fetch, resp, ICache.respBits, hs, icacheIn, request]

/-- The pending request stays until the cache is idle again. -/
theorem pending_next_of_busy (hr : i.redirectValid = false) (hs : f.icache.state ≠ .idle) :
    (f.next i).pending = if (f.next i).icache.state = .idle then [] else f.pending := by
  have hic : (f.next i).icache = f.icache.next (f.icacheIn i) := rfl
  obtain ⟨haddr, huser⟩ := ICache.next_fillAddr_of_not_reqFire
    (ICache.reqFire_eq_false (i := f.icacheIn i) hs)
  have hk : (f.icache.next (f.icacheIn i)).reqKilled = f.icache.reqKilled := by
    simp [ICache.next, hr, hs]
  rw [pending, pending, hic, hk, haddr, huser]
  split_ifs <;> simp_all

/-- What a cycle adds to the fetches in the unit, and what it leaves pending: the
request and the response of the cache balance. -/
theorem pending_next (hr : i.redirectValid = false) :
    (if f.respFire i then [(f.enqBits i).fetch] else []) ++ (f.next i).pending =
      f.pending ++ if f.reqFire i then [f.request] else [] := by
  have hkill : (f.icacheIn i).kill = false := hr
  have hic : (f.next i).icache = f.icache.next (f.icacheIn i) := rfl
  have hresp : f.respFire i = f.icache.respFire (f.icacheIn i) := rfl
  by_cases hs : f.icache.state = .idle
  · have hfire : f.icache.reqFire (f.icacheIn i) = true := by
      simp [ICache.reqFire, ICache.reqReady, icacheIn, hr, hs]
    have hk : (f.icache.next (f.icacheIn i)).reqKilled = false := by
      simp [ICache.next, hr, hs]
    have huser : (f.icache.next (f.icacheIn i)).fillAddr = f.pc ∧
        (f.icache.next (f.icacheIn i)).fillUser = ⟨f.predictTaken, f.predictTarget⟩ := by
      simp only [ICache.next, hfire, if_true]
      exact ⟨rfl, rfl⟩
    have hstate := ICache.next_state_of_reqFire hfire
    rw [hkill] at hstate
    rw [enqBits_fetch, pending, hic]
    cases hf : f.icache.respFire (f.icacheIn i) with
    | true =>
        -- an immediate hit: the request never becomes pending
        have hhit : f.icache.hit (f.icacheIn i) = true := by
          by_contra hh
          simp [ICache.respFire, ICache.respValid, hh, hs] at hf
        simp [hresp, reqFire, pending, hf, hfire, hs, hstate, hhit]
    | false =>
        have hstate' : (f.icache.next (f.icacheIn i)).state ≠ .idle := by
          rw [hstate, hf]
          cases f.icache.hit (f.icacheIn i) <;> simp
        simp [hresp, reqFire, pending, hf, hfire, hs, hstate', hk, huser.1, huser.2, request]
  · have hnf : f.reqFire i = false := ICache.reqFire_eq_false hs
    have hkilled : f.icache.isKilled (f.icacheIn i) = f.icache.reqKilled := by
      simp [ICache.isKilled, hr]
    rw [pending_next_of_busy hr hs, hnf, hresp, enqBits_fetch, if_neg hs]
    cases hrk : f.icache.reqKilled with
    | true =>
        -- a killed request is not answered
        rw [ICache.respFire_of_killed (hkilled.trans hrk)]
        simp [pending, hrk]
    | false =>
        simp only [hic, ICache.next_idle_iff hs (hkilled.trans hrk)]
        cases f.icache.respFire (f.icacheIn i) <;> simp [pending, hs, hrk]

/-- A redirect leaves nothing in flight. -/
theorem inflight_next_of_redirect (hr : i.redirectValid = true) : (f.next i).inflight = [] := by
  have hq : (f.next i).queue = [] := by simp [next, hr]
  have hk : (f.next i).icache.reqKilled = true := by simp [next, ICache.next, hr]
  simp [inflight, hq, pending, hk]

/-- What is delivered leaves the front of the stream, what is requested enters its back. -/
theorem inflight_next (hr : i.redirectValid = false) :
    ((f.delivers i).map IFUOut.fetch).toList ++ (f.next i).inflight =
      f.inflight ++ if f.reqFire i then [f.request] else [] := by
  have hp := pending_next (f := f) hr
  have hq : (f.next i).queue = (if (f.delivers i).isSome then f.queue.tail else f.queue) ++
      if f.respFire i then [f.enqBits i] else [] := by simp [next, hr]
  have hdel : (f.delivers i).toList ++ (if (f.delivers i).isSome then f.queue.tail else f.queue) =
      f.queue := by
    cases hd : i.outReady <;> cases hl : f.queue <;> simp [delivers, out, hr, hd, hl]
  have hmap :
      ((f.delivers i).map IFUOut.fetch).toList = (f.delivers i).toList.map IFUOut.fetch := by
    cases f.delivers i <;> rfl
  have hif : (if f.respFire i then [f.enqBits i] else []).map IFUOut.fetch =
      if f.respFire i then [(f.enqBits i).fetch] else [] := by
    cases f.respFire i <;> rfl
  rw [inflight, hq, List.map_append, hif, List.append_assoc, hp, hmap, ← List.append_assoc,
    ← List.append_assoc, ← List.map_append, hdel, inflight]

/-- After reset the stream starts at the reset vector. -/
theorem links_of_reset (h : f.IsReset) : Links resetVector f.inflight f.pc := by
  simp [inflight, pending, h.queue, h.icache.state, h.pc]

/-! ## The account of a run -/

/-- What has been requested and delivered since the last redirect.  A request is named
by the cycle in which the cache accepted it; a response is to the latest request. -/
structure FetchLog where
  now : ℕ := 0
  since : ℕ := 0
  start : Word := resetVector
  requested : List (ℕ × Fetch) := []
  delivered : List (ℕ × Fetch) := []
  queued : List ℕ := []
  lastReq : ℕ := 0

/-- The latest request at the end of a cycle. -/
def FetchLog.last (l : FetchLog) (f : IFU) (i : IFUIn) : ℕ :=
  if f.reqFire i then l.now else l.lastReq

/-- The account after a cycle; a redirect begins a new one. -/
def FetchLog.next (l : FetchLog) (f : IFU) (i : IFUIn) : FetchLog :=
  if i.redirectValid then
    { now := l.now + 1, since := l.now + 1, start := i.redirectTarget, lastReq := l.lastReq }
  else
    { now := l.now + 1
      since := l.since
      start := l.start
      requested := l.requested ++ if f.reqFire i then [(l.now, f.request)] else []
      delivered := l.delivered ++
        ((f.delivers i).map fun o => (l.queued.headD 0, o.fetch)).toList
      queued := (if (f.delivers i).isSome then l.queued.tail else l.queued) ++
        if f.respFire i then [l.last f i] else []
      lastReq := l.last f i }

/-- The log counts the cycles. -/
theorem FetchLog.next_now (l : FetchLog) (f : IFU) (i : IFUIn) :
    (l.next f i).now = l.now + 1 := by
  cases hr : i.redirectValid <;> simp [FetchLog.next, hr]

/-- The log notes the last redirect. -/
theorem FetchLog.next_since (l : FetchLog) (f : IFU) (i : IFUIn) :
    (l.next f i).since = if i.redirectValid then l.now + 1 else l.since := by
  cases hr : i.redirectValid <;> simp [FetchLog.next, hr]

/-- The log of a run. -/
def fetchLog (r : machine.Run) : ℕ → FetchLog := r.watch {} FetchLog.next

/-- **The stream is intact**: what was delivered since the last redirect starts at
its target and follows its own predictions; it is an initial part of what was requested
since then, request by request; and only the queue and one request lie between the two. -/
structure StreamIntact (l : FetchLog) : Prop where
  order : FollowsPrediction l.start (l.delivered.map Prod.snd)
  once : l.delivered <+: l.requested
  distinct : (l.requested.map Prod.fst).Pairwise (· < ·)
  fresh : ∀ e ∈ l.requested, l.since ≤ e.1
  complete : l.requested.length ≤ l.delivered.length + 5

/-! ### The invariant of the account -/

/-- The requests are those delivered, queued and pending; they are linked up to the
current `pc`, in the order of their cycles. -/
structure Account (l : FetchLog) (f : IFU) : Prop where
  balance : l.requested = l.delivered ++ l.queued.zip (f.queue.map IFUOut.fetch) ++
    f.pending.map fun x => (l.lastReq, x)
  queued : l.queued.length = f.queue.length
  room : f.queue.length ≤ 4
  links : Links l.start (l.requested.map Prod.snd) f.pc
  distinct : (l.requested.map Prod.fst).Pairwise (· < ·)
  fresh : ∀ e ∈ l.requested, l.since ≤ e.1 ∧ e.1 < l.now
  clock : l.since ≤ l.now

/-- After reset nothing is asked for. -/
theorem Account.of_reset (h : f.IsReset) : Account {} f where
  balance := by simp [h.queue, pending, h.icache.state]
  queued := by simp [h.queue]
  room := by simp [h.queue]
  links := h.pc.symm
  distinct := List.Pairwise.nil
  fresh := by simp
  clock := le_rfl

variable {l : FetchLog}

/-- The balance of request and response, with the names of the requests. -/
theorem pending_next_named (hr : i.redirectValid = false) :
    (if f.respFire i then [(l.last f i, (f.enqBits i).fetch)] else []) ++
        (f.next i).pending.map (fun x => (l.last f i, x)) =
      f.pending.map (fun x => (l.lastReq, x)) ++
        if f.reqFire i then [(l.now, f.request)] else [] := by
  have hp := congrArg (List.map fun x => (l.last f i, x)) (pending_next (f := f) hr)
  rw [List.map_append, List.map_append] at hp
  have hresp : (if f.respFire i then [(f.enqBits i).fetch] else []).map
      (fun x => (l.last f i, x)) =
        if f.respFire i then [(l.last f i, (f.enqBits i).fetch)] else [] := by
    cases f.respFire i <;> rfl
  rw [hresp] at hp
  rw [hp]
  cases hq : f.reqFire i with
  | false => simp [FetchLog.last, hq]
  | true =>
      have hidle : f.icache.state = .idle := f.icache.state_of_reqFire _ hq
      simp [FetchLog.last, hq, pending, hidle]

/-- What is delivered leaves the front of the queue, with its name. -/
theorem zip_delivers (hlen : l.queued.length = f.queue.length) :
    ((f.delivers i).map fun o => (l.queued.headD 0, o.fetch)).toList ++
        (if (f.delivers i).isSome then l.queued.tail else l.queued).zip
          ((if (f.delivers i).isSome then f.queue.tail else f.queue).map IFUOut.fetch) =
      l.queued.zip (f.queue.map IFUOut.fetch) := by
  cases hd : f.delivers i with
  | none => simp
  | some o =>
      have hhead : f.queue.head? = some o := by
        simp only [delivers, out] at hd
        split_ifs at hd with h1 h2
        exact hd
      cases hq : f.queue with
      | nil => simp [hq] at hhead
      | cons x q =>
          rw [hq, List.head?_cons, Option.some_inj] at hhead
          cases hn : l.queued with
          | nil => simp [hq, hn] at hlen
          | cons n ns => simp [hhead]

/-- A delivery takes the oldest entry of the queue. -/
theorem length_delivers (hlen : l.queued.length = f.queue.length) :
    (if (f.delivers i).isSome then l.queued.tail else l.queued).length =
      (if (f.delivers i).isSome then f.queue.tail else f.queue).length := by
  cases (f.delivers i).isSome <;> simp [hlen]

/-! ### A cycle without a redirect -/

/-- A request that is accepted is noted. -/
theorem FetchLog.next_requested (hr : i.redirectValid = false) :
    (l.next f i).requested =
      l.requested ++ if f.reqFire i then [(l.now, f.request)] else [] := by
  simp [FetchLog.next, hr]

/-- A response joins the queue of the log. -/
theorem FetchLog.next_queued (hr : i.redirectValid = false) :
    (l.next f i).queued = (if (f.delivers i).isSome then l.queued.tail else l.queued) ++
      if f.respFire i then [l.last f i] else [] := by
  simp [FetchLog.next, hr]

/-- A delivery leaves the queue of the log. -/
theorem FetchLog.next_delivered (hr : i.redirectValid = false) :
    (l.next f i).delivered =
      l.delivered ++ ((f.delivers i).map fun o => (l.queued.headD 0, o.fetch)).toList := by
  simp [FetchLog.next, hr]

/-- The queue loses what is delivered and gains the response. -/
theorem queue_next (hr : i.redirectValid = false) :
    (f.next i).queue = (if (f.delivers i).isSome then f.queue.tail else f.queue) ++
      if f.respFire i then [f.enqBits i] else [] := by
  simp [IFU.next, hr]

/-- A response is only taken with room for it. -/
theorem room_next (hr : i.redirectValid = false) (h : f.queue.length ≤ 4) :
    (f.next i).queue.length ≤ 4 := by
  have hshort : (if (f.delivers i).isSome then f.queue.tail else f.queue).length ≤
      f.queue.length := by
    cases (f.delivers i).isSome <;> simp
  rw [queue_next hr, List.length_append]
  cases hresp : f.respFire i with
  | false =>
      simp only [Bool.false_eq_true, if_false, List.length_nil]
      omega
  | true =>
      have henq : f.queue.length < 4 := by
        simp only [respFire, ICache.respFire, Bool.and_eq_true] at hresp
        simpa [icacheIn, enqReady] using hresp.2
      simp only [if_true, List.length_singleton]
      omega

/-- The log is as long as the queue. -/
theorem Account.queued_next (h : Account l f) (hr : i.redirectValid = false) :
    (l.next f i).queued.length = (f.next i).queue.length := by
  rw [FetchLog.next_queued hr, queue_next hr, List.length_append, List.length_append,
    length_delivers h.queued]
  cases f.respFire i <;> rfl

/-- The queue with the names of its requests. -/
theorem Account.zip_next (h : Account l f) (hr : i.redirectValid = false) :
    (l.next f i).queued.zip ((f.next i).queue.map IFUOut.fetch) =
      (if (f.delivers i).isSome then l.queued.tail else l.queued).zip
        ((if (f.delivers i).isSome then f.queue.tail else f.queue).map IFUOut.fetch) ++
      if f.respFire i then [(l.last f i, (f.enqBits i).fetch)] else [] := by
  rw [FetchLog.next_queued hr, queue_next hr, List.map_append,
    List.zip_append (by rw [List.length_map, length_delivers h.queued])]
  cases f.respFire i <;> rfl

/-- What has been asked for is delivered, queued or pending. -/
theorem Account.balance_next (h : Account l f) (hr : i.redirectValid = false) :
    (l.next f i).requested = (l.next f i).delivered ++
      (l.next f i).queued.zip ((f.next i).queue.map IFUOut.fetch) ++
        (f.next i).pending.map fun x => ((l.next f i).lastReq, x) := by
  have hlast : (l.next f i).lastReq = l.last f i := by simp [FetchLog.next, hr]
  -- what is delivered moves from the queue, and the response from the pending request
  rw [FetchLog.next_requested hr, h.balance, FetchLog.next_delivered hr, h.zip_next hr, hlast,
    List.append_assoc _ _ (ite _ _ _), ← pending_next_named hr, ← zip_delivers (i := i) h.queued]
  simp only [List.append_assoc]

/-- Every request is at the address that the one before predicts. -/
theorem Account.links_next (h : Account l f) (hr : i.redirectValid = false) :
    Links (l.next f i).start ((l.next f i).requested.map Prod.snd) (f.next i).pc := by
  have hstart : (l.next f i).start = l.start := by simp [FetchLog.next, hr]
  have hmap : (if f.reqFire i then [(l.now, f.request)] else []).map Prod.snd =
      if f.reqFire i then [f.request] else [] := by
    cases f.reqFire i <;> rfl
  rw [FetchLog.next_requested hr, hstart, List.map_append, hmap]
  exact links_request hr h.links

/-- A request is named by a later cycle than the ones before it. -/
theorem Account.distinct_next (h : Account l f) (hr : i.redirectValid = false) :
    ((l.next f i).requested.map Prod.fst).Pairwise (· < ·) := by
  rw [FetchLog.next_requested hr, List.map_append, List.pairwise_append]
  refine ⟨h.distinct, ?_, ?_⟩
  · cases f.reqFire i <;> simp
  · intro a ha b hb
    obtain ⟨e, he, rfl⟩ := List.mem_map.mp ha
    have hlt := (h.fresh e he).2
    cases hq : f.reqFire i with
    | false => simp [hq] at hb
    | true =>
        simp only [hq, if_true, List.map_cons, List.map_nil, List.mem_singleton] at hb
        omega

/-- Every request is from after the last redirect. -/
theorem Account.fresh_next (h : Account l f) (hr : i.redirectValid = false) :
    ∀ e ∈ (l.next f i).requested, (l.next f i).since ≤ e.1 ∧ e.1 < (l.next f i).now := by
  intro e he
  rw [FetchLog.next_now, FetchLog.next_since, hr, if_neg (by decide)]
  rw [FetchLog.next_requested hr, List.mem_append] at he
  rcases he with he | he
  · have hold := h.fresh e he
    omega
  · have hclock := h.clock
    cases hq : f.reqFire i with
    | false => simp [hq] at he
    | true =>
        simp only [hq, if_true, List.mem_singleton] at he
        subst he
        simp only
        omega

/-- A redirect begins a new account. -/
theorem Account.of_redirect (hr : i.redirectValid = true) : Account (l.next f i) (f.next i) := by
  have hin := inflight_next_of_redirect (f := f) hr
  simp only [inflight, List.append_eq_nil_iff, List.map_eq_nil_iff] at hin
  have hpc : (f.next i).pc = i.redirectTarget := by simp [IFU.next, dnpc, hr]
  constructor <;> simp [FetchLog.next, hr, hin.1, hin.2, hpc]

/-- **The account is kept by every cycle.** -/
theorem Account.next (h : Account l f) : Account (l.next f i) (f.next i) := by
  cases hr : i.redirectValid with
  | true => exact Account.of_redirect hr
  | false =>
      refine ⟨h.balance_next hr, h.queued_next hr, room_next hr h.room, h.links_next hr,
        h.distinct_next hr, h.fresh_next hr, ?_⟩
      rw [FetchLog.next_now, FetchLog.next_since, hr, if_neg (by decide)]
      exact Nat.le_succ_of_le h.clock

/-- The account holds in every run. -/
theorem account (r : machine.Run) (t : ℕ) : Account (fetchLog r t) (r.st t) := by
  induction t with
  | zero => exact Account.of_reset r.start
  | succ t ih =>
      rw [fetchLog, r.watch_succ, ← fetchLog, r.step t]
      exact ih.next

/-- **Fetch stream integrity**: the stream is intact in every cycle of every run. -/
theorem stream_intact (r : machine.Run) (t : ℕ) : StreamIntact (fetchLog r t) := by
  have h := account r t
  have hbal := h.balance
  rw [List.append_assoc] at hbal
  refine ⟨?_, ⟨_, hbal.symm⟩, h.distinct, fun e he => (h.fresh e he).1, ?_⟩
  · have hl := h.links
    rw [hbal, List.map_append, links_append] at hl
    obtain ⟨m, hm, -⟩ := hl
    exact ⟨m, hm⟩
  · have hroom := h.room
    have hlen := h.queued
    have hpend : (r.st t).pending.length ≤ 1 := by
      unfold pending
      split_ifs <;> simp
    rw [hbal, List.length_append, List.length_append, List.length_zip, List.length_map,
      List.length_map]
    omega

end IFU

end Bailuwan
