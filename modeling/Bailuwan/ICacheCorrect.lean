/-
# Correctness of the instruction cache under a fixed memory

For every sequence of requests, kills, flushes and back-pressure, and every memory
that answers each burst with its four beats after any delays:

* a delivered word is the memory word at the address of the last accepted request,
  with that request's address and user payload and without error;
* a request is answered at most once, never after it was killed, and it has been
  answered or killed before the next one is accepted;
* if the memory keeps answering and the fetch side keeps taking responses, every
  request is answered or killed.
-/
import Mathlib.Tactic.IntervalCases
import Bailuwan.ICacheFill

namespace Bailuwan

open Synchronous AXI4

namespace ICache

variable {α : Type*} (r : (machine α).Run)

/-! ## The events of a run -/

/-- Cycle `t` accepts a request. -/
def Accepts (t : ℕ) : Prop := (r.st t).reqFire (r.inp t) = true

/-- Cycle `t` hands over a response. -/
def Responds (t : ℕ) : Prop := (r.st t).respFire (r.inp t) = true

/-- Cycle `t` pulses `kill`. -/
def Kills (t : ℕ) : Prop := (r.inp t).kill = true

/-- The burst the memory owes the cache at each cycle. -/
def burst : ℕ → Option ReadBurst :=
  r.watch none fun m c i => readNext m c.memOut i.mem

/-- The memory answers reads in bursts, after any delays. -/
def AnswersBursts : Prop := ∀ t, ReadsInBursts (burst r t) (r.inp t).mem

variable {r}

/-- The burst of a fill is followed in every run. -/
theorem fillTrack (hb : AnswersBursts r) (t : ℕ) : FillTrack (r.st t) (burst r t) :=
  r.invariant (fun t c => FillTrack c (burst r t)) (fun _ h => FillTrack.of_reset h)
    (fun t h => h.next (hb t)) t

/-- A beat for a cache waiting for memory belongs to word `fill_cnt` of its block. -/
theorem FillTrack.beatAddr_eq {c : ICache α} {m : Option ReadBurst} (ht : FillTrack c m)
    (hs : c.state = .waitMem) :
    ∃ b, m = some b ∧ beatAddr b.ar b.beat = wordAddr c.fillTag c.fillIndex c.fillCnt :=
  ⟨_, ht.waiting hs, beatAddr_block c.fillAddr _ c.fillCnt rfl rfl rfl⟩

/-- The words of a fixed memory. -/
def HoldsMem (mem : Word → Word) (t : BitVec 26) (k o : BitVec 2) (w : Word) : Prop :=
  w = mem (wordAddr t k o)

/-- Under a fixed memory that never faults, all delivered words are its words. -/
theorem sound_of_readsFrom {mem : Word → Word} (hb : AnswersBursts r)
    (hm : ∀ t, ReadsFrom mem (burst r t) (r.inp t).mem) (t : ℕ) :
    Sound (fun _ _ => True) (HoldsMem mem) (r.st t) := by
  refine r.invariant (fun _ c => Sound _ (HoldsMem mem) c) (fun _ h => Sound.of_reset _ _ h)
    (fun t h => ?_) t
  have ht := fillTrack hb t
  have hbeat : (r.st t).rFire (r.inp t) = true → (r.inp t).mem.r.bits.resp = AXIResp.OKAY ∧
      (r.inp t).mem.r.bits.data =
        mem (wordAddr (r.st t).fillTag (r.st t).fillIndex (r.st t).fillCnt) := by
    intro hr
    obtain ⟨b, hbm, haddr⟩ := ht.beatAddr_eq ((r.st t).state_of_rFire _ hr)
    rw [rFire_eq, Bool.and_eq_true] at hr
    rw [← haddr]
    exact hm t hr.1 b hbm
  exact h.next ht.start (fun hr _ => ⟨ht.last_iff (hb t) hr, (hbeat hr).2⟩)
    fun hr _ => (hbeat hr).1

/-! ## The request being served -/

/-- Outside `s_idle` the cache serves the last accepted request. -/
theorem serving (t : ℕ) : (r.st t).state ≠ .idle →
    ∃ a, LastAt (Accepts r) a t ∧ (r.st t).fillAddr = (r.inp a).req.bits.addr ∧
      (r.st t).fillUser = (r.inp a).req.bits.user := by
  induction t with
  | zero => intro h; exact absurd r.start.state h
  | succ t ih =>
      intro h
      have hn : ¬ Accepts r (t + 1) := fun ha => h ((r.st (t + 1)).state_of_reqFire _ ha)
      rw [r.step t] at h ⊢
      cases hr : (r.st t).reqFire (r.inp t) with
      | true =>
          refine ⟨t, (LastAt.self hr).succ hn, ?_, ?_⟩ <;> simp [machine, ICache.next, hr]
      | false =>
          have hs : (r.st t).state ≠ .idle := fun hs => h (next_state_of_idle hs hr)
          obtain ⟨a, hla, haddr, huser⟩ := ih hs
          obtain ⟨h1, h2⟩ := next_fillAddr_of_not_reqFire hr
          exact ⟨a, hla.succ hn, h1.trans haddr, h2.trans huser⟩

/-- A response carries the address and user payload of the last accepted request. -/
theorem respBits_serving {t : ℕ} (hv : (r.st t).respValid (r.inp t) = true) :
    ∃ a, LastAt (Accepts r) a t ∧
      ((r.st t).respBits (r.inp t)).addr = (r.inp a).req.bits.addr ∧
      ((r.st t).respBits (r.inp t)).user = (r.inp a).req.bits.user := by
  by_cases hs : (r.st t).state = .idle
  · simp only [respValid, hs, Bool.and_eq_true, Bool.or_eq_true, decide_eq_true_eq,
      reduceCtorEq, or_false] at hv
    exact ⟨t, LastAt.self hv.1.1, by simp [respBits, hs], by simp [respBits, hs]⟩
  · obtain ⟨a, hla, haddr, huser⟩ := serving t hs
    exact ⟨a, hla, by simp [respBits, hs, haddr], by simp [respBits, hs, huser]⟩

/-! ## At most one answer -/

/-- A response leaves the cache idle. -/
theorem state_idle_of_respFire {c : ICache α} {i : ICacheIn α} (h : c.respFire i = true) :
    (c.next i).state = .idle := by
  have hv := h
  simp only [respFire, respValid, Bool.and_eq_true, Bool.or_eq_true, decide_eq_true_eq] at hv
  obtain ⟨⟨⟨hr, hh⟩ | hs, hk⟩, -⟩ := hv
  · rw [next_state_of_reqFire hr, hh, h]
    simp
  · rw [next_state_of_resp hs, h]
    rfl

/-- An idle cache that is asked nothing has no response. -/
theorem not_respValid_of_idle {c : ICache α} {i : ICacheIn α} (hs : c.state = .idle)
    (hr : c.reqFire i = false) : c.respValid i = false := by
  simp [respValid, hr, hs]

/-- Once the cache is idle it stays idle and silent until the next request. -/
theorem idle_until {a t u : ℕ} (hat : a < t)
    (hs : (r.st t).state = .idle) (htu : t ≤ u) (hu : LastAt (Accepts r) a u) :
    (r.st u).state = .idle ∧ ¬ Responds r u := by
  have hq : ∀ v, a < v → v ≤ u → (r.st v).reqFire (r.inp v) = false :=
    fun v h1 h2 => Bool.eq_false_iff.mpr (hu.2.2 v h1 h2)
  have hidle : (r.st u).state = .idle := by
    induction u, htu using Nat.le_induction with
    | base => exact hs
    | succ u htu ih =>
        rw [r.step u]
        exact next_state_of_idle
          (ih (hu.pred (hu.2.2 _ (by omega) le_rfl)) fun v h1 h2 => hq v h1 (by omega))
          (hq u (by omega) (by omega))
  refine ⟨hidle, fun h => ?_⟩
  have := not_respValid_of_idle hidle (hq u (by omega) le_rfl)
  simp [Responds, respFire, this] at h

/-- A killed cache: idle, or with the kill remembered. -/
def Dropped (c : ICache α) : Prop := c.state = .idle ∨ c.reqKilled = true

/-- A kill drops the request. -/
theorem dropped_of_kill {c : ICache α} {i : ICacheIn α} (hk : i.kill = true) :
    Dropped (c.next i) := by
  right
  simp [ICache.next, hk]

/-- A dropped request stays dropped until the next one. -/
theorem dropped_next {c : ICache α} {i : ICacheIn α} (h : Dropped c)
    (hr : c.reqFire i = false) : Dropped (c.next i) := by
  by_cases hs : c.state = .idle
  · exact Or.inl (next_state_of_idle hs hr)
  · right
    have hk : c.reqKilled = true := h.resolve_left hs
    simp [ICache.next, hs, hk]

/-- A dropped request is not answered. -/
theorem not_respValid_of_dropped {c : ICache α} {i : ICacheIn α} (h : Dropped c)
    (hr : c.reqFire i = false) : c.respValid i = false := by
  rcases h with hs | hk
  · exact not_respValid_of_idle hs hr
  · simp [respValid, isKilled, hk]

/-- **A killed request is not answered**, neither in the cycle of the kill nor later. -/
theorem not_responds_of_kill {a k t : ℕ} (hk : LastAt (Accepts r) a k)
    (ht : LastAt (Accepts r) a t) (hkill : Kills r k) (hkt : k ≤ t) : ¬ Responds r t := by
  rcases Nat.eq_or_lt_of_le hkt with rfl | hlt
  · intro h
    have hkill' : (r.inp k).kill = true := hkill
    simp [Responds, respFire, respValid, isKilled, hkill'] at h
  · have hq : ∀ v, a < v → v ≤ t → (r.st v).reqFire (r.inp v) = false :=
      fun v h1 h2 => Bool.eq_false_iff.mpr (ht.2.2 v h1 h2)
    have hak := hk.1
    have hdrop : ∀ v, k + 1 ≤ v → v ≤ t → Dropped (r.st v) := by
      intro v hv
      induction v, hv using Nat.le_induction with
      | base => intro _; rw [r.step k]; exact dropped_of_kill hkill
      | succ v hv ih =>
          intro hvt
          rw [r.step v]
          exact dropped_next (ih (by omega)) (hq v (by omega) (by omega))
    intro h
    have := not_respValid_of_dropped (hdrop t hlt le_rfl) (hq t (by omega) le_rfl)
    simp [Responds, respFire, this] at h

/-- **A request is answered at most once.** -/
theorem responds_unique {a t u : ℕ} (ht : LastAt (Accepts r) a t)
    (hu : LastAt (Accepts r) a u) (h1 : Responds r t) (h2 : Responds r u) : t = u := by
  have key : ∀ {t u}, LastAt (Accepts r) a t → LastAt (Accepts r) a u → Responds r t →
      Responds r u → ¬ t < u := by
    intro t u ht hu h1 h2 hlt
    have hs : (r.st (t + 1)).state = .idle := by
      rw [r.step t]
      exact state_idle_of_respFire h1
    have hat := ht.1
    have hn : ¬ Accepts r (t + 1) := hu.2.2 _ (by omega) (by omega)
    exact (idle_until (a := a) (by omega) hs (by omega) hu).2 h2
  rcases lt_trichotomy t u with h | h | h
  · exact absurd h (key ht hu h1 h2)
  · exact h
  · exact absurd h (key hu ht h2 h1)

/-! ## No request is lost -/

/-- An accepted request that is neither answered nor killed keeps the cache busy. -/
theorem busy_of_owed {a : ℕ} (ha : Accepts r a) {u : ℕ} (hau : a < u)
    (hopen : ∀ t, a ≤ t → t < u → ¬ Responds r t ∧ ¬ Kills r t) :
    (r.st u).state ≠ .idle ∧ (r.st u).reqKilled = false := by
  induction u, hau using Nat.le_induction with
  | base =>
      obtain ⟨hresp, hkill⟩ := hopen a le_rfl (by omega)
      have hk : (r.inp a).kill = false := Bool.eq_false_iff.mpr hkill
      have hf : (r.st a).respFire (r.inp a) = false := Bool.eq_false_iff.mpr hresp
      have hs := (r.st a).state_of_reqFire _ ha
      rw [r.step a]
      refine ⟨?_, by simp [machine, ICache.next, hk, hs]⟩
      have := next_state_of_reqFire ha
      rw [hk, hf] at this
      change ((r.st a).next (r.inp a)).state ≠ .idle
      rw [this]
      split_ifs <;> simp at *
  | succ u hau ih =>
      obtain ⟨hs, hrk⟩ := ih fun t h1 h2 => hopen t h1 (by omega)
      obtain ⟨hresp, hkill⟩ := hopen u (by omega) (by omega)
      have hk : (r.inp u).kill = false := Bool.eq_false_iff.mpr hkill
      have hf : (r.st u).respFire (r.inp u) = false := Bool.eq_false_iff.mpr hresp
      have hik : (r.st u).isKilled (r.inp u) = false := by simp [isKilled, hk, hrk]
      rw [r.step u]
      refine ⟨?_, by simp [machine, ICache.next, hk, hrk]⟩
      change ((r.st u).next (r.inp u)).state ≠ .idle
      cases hst : (r.st u).state with
      | idle => exact absurd hst hs
      | fillAddr => rw [next_state_of_fillAddr hst]; split_ifs <;> simp
      | waitMem => rw [next_state_of_waitMem hst, hik]; split_ifs <;> simp_all
      | resp => rw [next_state_of_resp hst, hik, hf]; simp

/-- **Before the next request is accepted, this one was answered or killed.** -/
theorem settled_before_next {a b : ℕ} (ha : Accepts r a) (hab : a < b) (hb : Accepts r b)
    (hnone : ∀ u, a < u → u < b → ¬ Accepts r u) :
    ∃ t, LastAt (Accepts r) a t ∧ t < b ∧ (Responds r t ∨ Kills r t) := by
  by_contra hcon
  push Not at hcon
  have hopen : ∀ t, a ≤ t → t < b → ¬ Responds r t ∧ ¬ Kills r t := by
    intro t h1 h2
    exact hcon t ⟨h1, ha, fun u hu1 hu2 => hnone u hu1 (by omega)⟩ h2
  exact (busy_of_owed ha hab hopen).1 ((r.st b).state_of_reqFire _ hb)

/-! ## Progress -/

/-- The environment keeps going: a read address held long enough is accepted, a burst
owed is continued, and a response held long enough is taken. -/
structure Fair (r : (machine α).Run) : Prop where
  accept : ∀ t, (∀ u, t ≤ u → (r.st u).memOut.ar.valid = true) →
    ∃ u, t ≤ u ∧ (r.inp u).mem.arReady = true
  answer : ∀ t, burst r t ≠ none → ∃ u, t ≤ u ∧ (r.inp u).mem.r.valid = true
  take : ∀ t, (∀ u, t ≤ u → (r.st u).respValid (r.inp u) = true) →
    ∃ u, t ≤ u ∧ (r.inp u).respReady = true

/-- A pending address phase ends in the data phase. -/
theorem waitMem_of_fillAddr (hf : Fair r) {t : ℕ} (hs : (r.st t).state = .fillAddr) :
    ∃ u, t ≤ u ∧ (r.st u).state = .waitMem := by
  have hstable : ∀ u, t ≤ u → (r.st u).state = .fillAddr →
      ¬ (r.st u).arFire (r.inp u) = true → (r.st (u + 1)).state = .fillAddr := by
    intro u _ hu hn
    rw [r.step u]
    exact (next_state_of_fillAddr hu).trans (if_neg hn)
  have hev : ∃ u, t ≤ u ∧ (r.st u).arFire (r.inp u) = true := by
    by_contra hcon
    push Not at hcon
    have hall : ∀ u, t ≤ u → (r.st u).state = .fillAddr := by
      intro u hu
      induction u, hu using Nat.le_induction with
      | base => exact hs
      | succ u hu ih => exact hstable u hu ih (hcon u hu)
    obtain ⟨u, hu, hrdy⟩ := hf.accept t fun u hu => by simp [hall u hu]
    exact hcon u hu (by simp [arFire_eq, hall u hu, hrdy])
  obtain ⟨u, hu, hsu, hfire, -⟩ := exists_first_at hs hstable hev
  refine ⟨u + 1, by omega, ?_⟩
  rw [r.step u]
  exact (next_state_of_fillAddr hsu).trans (if_pos hfire)

/-- In the data phase another beat arrives. -/
theorem beat_of_waitMem (hb : AnswersBursts r) (hf : Fair r) {t : ℕ}
    (hs : (r.st t).state = .waitMem) :
    ∃ u, t ≤ u ∧ (r.st u).rFire (r.inp u) = true ∧ (r.st u).fillCnt = (r.st t).fillCnt := by
  have hev : ∃ u, t ≤ u ∧ (r.inp u).mem.r.valid = true :=
    hf.answer t (by rw [(fillTrack hb t).waiting hs]; simp)
  have hstable : ∀ u, t ≤ u →
      (r.st u).state = .waitMem ∧ (r.st u).fillCnt = (r.st t).fillCnt →
      ¬ (r.inp u).mem.r.valid = true →
      (r.st (u + 1)).state = .waitMem ∧ (r.st (u + 1)).fillCnt = (r.st t).fillCnt := by
    intro u _ hu hn
    have hnr : (r.st u).rFire (r.inp u) = false := by simp [rFire_eq, hn]
    have hd : (r.st u).fillDone (r.inp u) = false := by simp [fillDone, hnr]
    rw [r.step u]
    refine ⟨(next_state_of_waitMem hu.1).trans (by simp [hd]), ?_⟩
    simp [machine, ICache.next, hu.1, hnr, hu.2]
  obtain ⟨u, hu, ⟨hsu, hcu⟩, hv, -⟩ := exists_first_at ⟨hs, rfl⟩ hstable hev
  exact ⟨u, hu, by simp [rFire_eq, hv, hsu], hcu⟩

/-- From any beat of the data phase the burst is completed. -/
theorem fillDone_of_waitMem (hb : AnswersBursts r) (hf : Fair r) {t : ℕ}
    (hs : (r.st t).state = .waitMem) :
    ∃ u, t ≤ u ∧ (r.st u).fillDone (r.inp u) = true := by
  -- by induction on the number of beats still to come
  induction hn : 3 - (r.st t).fillCnt.toNat using Nat.strong_induction_on generalizing t with
  | _ n ih =>
    obtain ⟨u, hu, hr, hcu⟩ := beat_of_waitMem hb hf hs
    have hsu := (r.st u).state_of_rFire _ hr
    have hlast := (fillTrack hb u).last_iff (hb u) hr
    cases hl : (r.inp u).mem.r.bits.last with
    | true => exact ⟨u, hu, by simp [fillDone, hr, hl]⟩
    | false =>
        have h3 : (r.st u).fillCnt ≠ 3 := fun h => by simp [hlast.mpr h] at hl
        have h3' : (r.st u).fillCnt.toNat ≠ 3 := fun h => h3 (BitVec.eq_of_toNat_eq h)
        have hlt := (r.st u).fillCnt.isLt
        have hd : (r.st u).fillDone (r.inp u) = false := by simp [fillDone, hl]
        have hsn : (r.st (u + 1)).state = .waitMem := by
          rw [r.step u]
          exact (next_state_of_waitMem hsu).trans (by simp [hd])
        have hcn : (r.st (u + 1)).fillCnt.toNat = (r.st u).fillCnt.toNat + 1 := by
          rw [r.step u, ← fillCnt_add_one h3]
          simp [machine, ICache.next, hsu, hr]
        obtain ⟨v, hv, hdone⟩ := ih _ (by rw [hcn, hcu]; rw [hcu] at h3' hlt; omega) hsn rfl
        exact ⟨v, by omega, hdone⟩

/-- The request accepted at `a` is never answered or killed, and no other one is accepted after
it. -/
structure Unsettled (r : (machine α).Run) (a : ℕ) : Prop where
  accepted : Accepts r a
  quiet : ∀ u, a ≤ u → ¬ Responds r u ∧ ¬ Kills r u

namespace Unsettled

variable {a t : ℕ}

/-- While a request is open no other one is accepted, so it stays the last one. -/
theorem of_open (ha : Accepts r a)
    (hopen : ∀ t, LastAt (Accepts r) a t → ¬ Responds r t ∧ ¬ Kills r t) : Unsettled r a := by
  refine ⟨ha, fun u hu => hopen u ?_⟩
  induction u using Nat.strong_induction_on with
  | _ u ih =>
    rcases Nat.eq_or_lt_of_le hu with rfl | hlt
    · exact LastAt.self ha
    · have hprev := ih (u - 1) (by omega) (by omega)
      have hbusy := busy_of_owed ha hlt fun t h1 h2 => hopen t (ih t h2 h1)
      have := hprev.succ (t := u - 1) (by
        rw [show u - 1 + 1 = u by omega]
        exact fun h => hbusy.1 ((r.st u).state_of_reqFire _ h))
      rwa [show u - 1 + 1 = u by omega] at this

/-- A request that is not settled keeps the cache busy. -/
theorem busy (h : Unsettled r a) (ht : a < t) :
    (r.st t).state ≠ .idle ∧ (r.st t).reqKilled = false :=
  busy_of_owed h.accepted ht fun u hu _ => h.quiet u hu

/-- A request that is not settled is not killed. -/
theorem not_killed (h : Unsettled r a) (ht : a < t) : (r.st t).isKilled (r.inp t) = false := by
  have hk : (r.inp t).kill = false := Bool.eq_false_iff.mpr (h.quiet t ht.le).2
  simp [isKilled, hk, (h.busy ht).2]

/-- The response state would never be left, which contradicts fairness. -/
theorem not_resp (h : Unsettled r a) (hf : Fair r) (ht : a < t) : (r.st t).state ≠ .resp := by
  intro hs
  have hall : ∀ u, t ≤ u → (r.st u).state = .resp := by
    intro u hu
    induction u, hu using Nat.le_induction with
    | base => exact hs
    | succ u hu ih =>
        have hnf : (r.st u).respFire (r.inp u) = false :=
          Bool.eq_false_iff.mpr (h.quiet u (by omega)).1
        rw [r.step u]
        exact (next_state_of_resp ih).trans (by simp [hnf, h.not_killed (by omega : a < u)])
  have hval : ∀ u, t ≤ u → (r.st u).respValid (r.inp u) = true := by
    intro u hu
    simp [respValid, hall u hu, h.not_killed (by omega : a < u)]
  obtain ⟨u, hu, hrdy⟩ := hf.take t hval
  exact (h.quiet u (by omega)).1 (by simp [Responds, respFire, hval u hu, hrdy])

/-- The data phase would end in the response state. -/
theorem not_waitMem (h : Unsettled r a) (hb : AnswersBursts r) (hf : Fair r) (ht : a < t) :
    (r.st t).state ≠ .waitMem := by
  intro hs
  obtain ⟨u, hu, hd⟩ := fillDone_of_waitMem hb hf hs
  have hsu := (r.st u).state_of_fillDone _ hd
  refine h.not_resp hf (t := u + 1) (by omega) ?_
  rw [r.step u]
  exact (next_state_of_waitMem hsu).trans (by simp [hd, h.not_killed (by omega : a < u)])

/-- The address phase would end in the data phase. -/
theorem false (h : Unsettled r a) (hb : AnswersBursts r) (hf : Fair r) : False := by
  have hfill : (r.st (a + 1)).state = .fillAddr := by
    have hidle := (h.busy (Nat.lt_succ_self a)).1
    have hresp := h.not_resp hf (Nat.lt_succ_self a)
    have hwait := h.not_waitMem hb hf (Nat.lt_succ_self a)
    cases hs : (r.st (a + 1)).state <;> simp_all
  obtain ⟨u, hu, hsu⟩ := waitMem_of_fillAddr hf hfill
  exact h.not_waitMem hb hf (by omega) hsu

end Unsettled

/-- **Every request is answered or killed** when the environment keeps going. -/
theorem settled (hb : AnswersBursts r) (hf : Fair r) {a : ℕ} (ha : Accepts r a) :
    ∃ t, LastAt (Accepts r) a t ∧ (Responds r t ∨ Kills r t) := by
  by_contra hcon
  push Not at hcon
  exact (Unsettled.of_open ha hcon).false hb hf

/-! ## The main theorem -/

/-- The request accepted at `a` is served properly: answered at most once and never
after a kill, settled before the next request is accepted, and, if the environment
keeps going, settled at some cycle. -/
structure Served (r : (machine α).Run) (a : ℕ) : Prop where
  once : ∀ t u, LastAt (Accepts r) a t → LastAt (Accepts r) a u → Responds r t →
    Responds r u → t = u
  notKilled : ∀ k t, LastAt (Accepts r) a k → LastAt (Accepts r) a t → Kills r k → k ≤ t →
    ¬ Responds r t
  beforeNext : ∀ b, a < b → Accepts r b → (∀ u, a < u → u < b → ¬ Accepts r u) →
    ∃ t, LastAt (Accepts r) a t ∧ t < b ∧ (Responds r t ∨ Kills r t)
  eventually : Fair r → ∃ t, LastAt (Accepts r) a t ∧ (Responds r t ∨ Kills r t)

/-- **The instruction cache is correct**: whatever is delivered belongs to the last
accepted request and carries the memory word at its word-aligned address without
error, and every accepted request is served properly. -/
theorem delivers_memory (mem : Word → Word) (r : (machine α).Run) (hb : AnswersBursts r)
    (hm : ∀ t, ReadsFrom mem (burst r t) (r.inp t).mem) :
    (∀ t, (r.st t).respValid (r.inp t) = true →
      ∃ a, LastAt (Accepts r) a t ∧ (r.st t).respBits (r.inp t) =
        { data := mem (wordAlign (r.inp a).req.bits.addr), addr := (r.inp a).req.bits.addr
          error := false, user := (r.inp a).req.bits.user }) ∧
    ∀ a, Accepts r a → Served r a := by
  constructor
  · intro t hv
    obtain ⟨herr, hdata⟩ := (sound_of_readsFrom hb hm t).respBits_ok hv trivial
    obtain ⟨a, hla, haddr, huser⟩ := respBits_serving hv
    rw [HoldsMem, wordAddr_parts, haddr] at hdata
    refine ⟨a, hla, ?_⟩
    rw [← hdata, ← haddr, ← herr, ← huser]
  · intro a ha
    exact ⟨fun t u => responds_unique, fun k t => not_responds_of_kill,
      fun b => settled_before_next ha, fun hf => settled hb hf ha⟩

/-! ## The cache beside an answering memory -/

/-- What is applied to the cache in one cycle: the fetch side, the flush, and the
contents and response code of an answering memory. -/
structure Stimulus where
  addr : Option Word := none
  respReady : Bool := true
  kill : Bool := false
  flush : Bool := false
  mem : Word → Word := fun _ => 0
  resp : BitVec 2 := AXIResp.OKAY

/-- The inputs of a cycle of the stimulated cache. -/
def Stimulus.input (s : Stimulus) (m : Option ReadBurst) : ICacheIn Unit where
  req := ⟨s.addr.isSome, ⟨s.addr.getD 0, ()⟩⟩
  respReady := s.respReady
  kill := s.kill
  flush := s.flush
  mem := answer s.mem s.resp m

/-- A cache out of reset, with zeros in the registers that reset leaves alone. -/
def fresh : ICache Unit where
  state := .idle
  fillAddr := 0
  fillUser := ()
  fillCnt := 0
  reqKilled := false
  err := false
  validStorage := fun _ => false
  tagStorage := fun _ => 0
  dataStorage := fun _ _ => 0

theorem fresh_isReset : fresh.IsReset :=
  ⟨rfl, rfl, rfl, rfl, fun _ => rfl⟩

/-- The run of the cache beside an answering memory; the environment counts the cycles
and follows the burst. -/
def driven (stim : ℕ → Stimulus) : (machine Unit).Run :=
  (machine Unit).closedRun fresh fresh_isReset (0, (none : Option ReadBurst))
    (fun e _ => (stim e.1).input e.2)
    (fun e c i => (e.1 + 1, readNext e.2 c.memOut i.mem))

/-- The beats of a driven run are those of the burst. -/
theorem driven_env (stim : ℕ → Stimulus) (t : ℕ) :
    (driven stim).inp t = (stim t).input (burst (driven stim) t) := by
  have key : ∀ t, ((machine Unit).closedStates fresh (0, (none : Option ReadBurst))
      (fun e _ => (stim e.1).input e.2)
      (fun e c i => (e.1 + 1, readNext e.2 c.memOut i.mem)) t).2 = (t, burst (driven stim) t) := by
    intro t
    induction t with
    | zero => rfl
    | succ t ih =>
        rw [burst, Machine.Run.watch_succ, ← burst, Machine.closedStates]
        simp only [ih]
        refine Prod.ext rfl ?_
        simp only [driven, Machine.closedRun, ih]
  simp only [driven, Machine.closedRun, key t]

/-- The memory of a driven run answers in bursts. -/
theorem driven_answersBursts (stim : ℕ → Stimulus) : AnswersBursts (driven stim) := by
  intro t
  rw [driven_env]
  exact answer_readsInBursts _ _ _

/-- The memory of a driven run answers from its contents. -/
theorem driven_readsFrom (mem : Word → Word) (stim : ℕ → Stimulus)
    (hmem : ∀ t, (stim t).mem = mem) (hresp : ∀ t, (stim t).resp = AXIResp.OKAY) (t : ℕ) :
    ReadsFrom mem (burst (driven stim) t) ((driven stim).inp t).mem := by
  rw [driven_env, ← hmem t]
  simp only [Stimulus.input, hresp t]
  exact answer_readsFrom _ _

/-- One request for the word at `0x30000004`, from a memory holding its own addresses. -/
def oneRequest (t : ℕ) : Stimulus :=
  { addr := if t = 0 then some 0x30000004 else none, mem := fun a => a }

/-- The request is answered in cycle 6 with the word at its address, and served properly. -/
theorem oneRequest_delivered :
    ((driven oneRequest).st 6).respBits ((driven oneRequest).inp 6) =
        { data := 0x30000004, addr := 0x30000004, error := false, user := () } ∧
      Served (driven oneRequest) 0 := by
  obtain ⟨hdata, hserved⟩ := delivers_memory (fun a => a) (driven oneRequest)
    (driven_answersBursts _) (driven_readsFrom _ _ (fun _ => rfl) (fun _ => rfl))
  obtain ⟨a, hla, hbits⟩ := hdata 6 (by decide)
  have ha : a = 0 := by
    have h0 : LastAt (Accepts (driven oneRequest)) 0 6 := by
      refine ⟨by omega, by unfold Accepts; decide, fun u h1 h2 => ?_⟩
      unfold Accepts
      interval_cases u <;> decide
    exact hla.unique h0
  subst ha
  exact ⟨hbits, hserved 0 (by unfold Accepts; decide)⟩

end ICache

end Bailuwan
