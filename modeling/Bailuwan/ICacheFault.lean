/-
# Faulting fills

A block one of whose beats answers with an error is not marked valid by its fill.
But the fill overwrites the tag and the words of the line whatever the valid bit
says, so a line that was valid before stays valid over the faulty block.

* `no_error_means_all_okay`: a response without error comes from a burst of four
  `OKAY` beats for the block of its address, provided no faulting fill ends on a
  line that is still valid (`FaultOverValid`);
* `faultOverValid_leaves_line`: when one does, the line is left valid under the tag
  of the faulty block;
* `faultOnValid_hits`: a run in which the faulty words are then delivered
  without error.
-/
import Bailuwan.ICacheCorrect

namespace Bailuwan

open Synchronous AXI4

namespace ICache

variable {α : Type*} (r : (machine α).Run)

/-! ## The last burst of a line -/

/-- A burst written into a line: the tag of its block and the response codes of the
beats received so far. -/
structure FillRecord where
  tag : BitVec 26
  resps : List (BitVec 2)
  deriving DecidableEq

/-- The record of a line after a beat; the first beat of a burst starts a new one. -/
def recordBeat (c : ICache α) (i : ICacheIn α) (old : Option FillRecord) : FillRecord :=
  if c.fillCnt = 0 then ⟨c.fillTag, [i.mem.r.bits.resp]⟩
  else ⟨c.fillTag, (old.elim [] FillRecord.resps) ++ [i.mem.r.bits.resp]⟩

/-- The burst that last wrote each line, if any. -/
def lastFill : ℕ → BitVec 2 → Option FillRecord :=
  r.watch (fun _ => none) fun log c i =>
    if c.rFire i then Function.update log c.fillIndex (some (recordBeat c i (log c.fillIndex)))
    else log

/-- The record of four `OKAY` beats for the block with tag `t`. -/
def allOkay (t : BitVec 26) : FillRecord := ⟨t, List.replicate 4 AXIResp.OKAY⟩

/-- **The statement about faults**: what is delivered without error was filled by a burst for
the block of its address, all four beats of which were `OKAY`. -/
def ErrorFreeMeansOkay : Prop :=
  ∀ t, (r.st t).respValid (r.inp t) = true → ((r.st t).respBits (r.inp t)).error = false →
    lastFill r t (indexOf ((r.st t).respBits (r.inp t)).addr) =
      some (allOkay (tagOf ((r.st t).respBits (r.inp t)).addr))

/-- A faulting fill ends on a line that is, and stays, valid. -/
def FaultOverValid (c : ICache α) (i : ICacheIn α) : Bool :=
  c.fillDone i && c.fillError i && !i.flush && c.validStorage c.fillIndex

variable {r}

/-! ## The invariant -/

/-- Readable lines were filled by four `OKAY` beats for their tag; the burst being
received has one code per beat, and `err` is low exactly while they are `OKAY`; what is
offered without error was filled the same way. -/
structure FaultInv (c : ICache α) (log : BitVec 2 → Option FillRecord) : Prop where
  line : ∀ k, c.Readable k → log k = some (allOkay (c.tagStorage k))
  fill : c.state = .waitMem → c.fillCnt ≠ 0 → ∃ resps,
    log c.fillIndex = some ⟨c.fillTag, resps⟩ ∧ resps.length = c.fillCnt.toNat ∧
      (c.err = false → ∀ x ∈ resps, x = AXIResp.OKAY)
  offer : c.state = .resp → c.err = false → log c.fillIndex = some (allOkay c.fillTag)

/-- After reset no line is readable. -/
theorem FaultInv.of_reset {c : ICache α} (h : c.IsReset) : FaultInv c (fun _ => none) where
  line k hk := by simp [Readable, h.validStorage] at hk
  fill hw := by simp [h.state] at hw
  offer hs := by simp [h.state] at hs

variable {c : ICache α} {i : ICacheIn α} {log : BitVec 2 → Option FillRecord}

/-- The record after a beat covers the beats `0 … fill_cnt`, and they are all `OKAY` if no
error is pending after it. -/
theorem FaultInv.recordBeat_spec (h : FaultInv c log) (hr : c.rFire i = true) :
    ∃ resps, recordBeat c i (log c.fillIndex) = ⟨c.fillTag, resps⟩ ∧
      resps.length = c.fillCnt.toNat + 1 ∧
      (c.fillError i = false → ∀ x ∈ resps, x = AXIResp.OKAY) := by
  have hs := c.state_of_rFire i hr
  have hok : c.fillError i = false → i.mem.r.bits.resp = AXIResp.OKAY := by
    intro he
    simp only [fillError, memRespErr, hr, Bool.or_eq_false_iff, Bool.true_and,
      decide_eq_false_iff_not, not_not] at he
    exact he.2
  by_cases h0 : c.fillCnt = 0
  · refine ⟨[i.mem.r.bits.resp], by simp [recordBeat, h0], by simp [h0], fun he x hx => ?_⟩
    rw [List.mem_singleton] at hx
    rw [hx, hok he]
  · obtain ⟨resps, hlog, hlen, hall⟩ := h.fill hs h0
    refine ⟨resps ++ [i.mem.r.bits.resp], by rw [recordBeat, if_neg h0, hlog]; rfl, by simp [hlen],
      fun he x hx => ?_⟩
    have hne : c.err = false := by
      simp only [fillError, Bool.or_eq_false_iff] at he
      exact he.1
    rcases List.mem_append.mp hx with hx | hx
    · exact hall hne x hx
    · rw [List.mem_singleton] at hx
      rw [hx, hok he]

/-- At the end of a fill without error the record is complete. -/
theorem FaultInv.recordBeat_done (h : FaultInv c log) (hd : c.fillDone i = true)
    (h3 : c.fillCnt = 3) (he : c.fillError i = false) :
    recordBeat c i (log c.fillIndex) = allOkay c.fillTag := by
  obtain ⟨resps, hrec, hlen, hall⟩ := h.recordBeat_spec (c.rFire_of_fillDone i hd)
  have h3' : c.fillCnt.toNat = 3 := by rw [h3]; rfl
  rw [hrec, allOkay, List.eq_replicate_of_mem (hall he), hlen, h3']

/-- A hit reads a line filled by four `OKAY` beats for the block of the request. -/
theorem FaultInv.of_hit (h : FaultInv c log) (hr : c.reqFire i = true) (hh : c.hit i = true) :
    log (indexOf i.req.bits.addr) = some (allOkay (tagOf i.req.bits.addr)) := by
  have hs := c.state_of_reqFire i hr
  simp only [hit, readIndex, hs, if_true, Bool.and_eq_true, decide_eq_true_eq] at hh
  obtain ⟨⟨-, hv⟩, htag⟩ := hh
  rw [← htag]
  exact h.line _ ⟨hv, fun h => by simp [hs] at h⟩

/-- **A cycle without a beat keeps the records.** -/
theorem FaultInv.next_of_not_rFire (h : FaultInv c log)
    (hstart : c.state = .fillAddr → c.fillCnt = 0) (hr : c.rFire i = false) :
    FaultInv (c.next i) log := by
  obtain ⟨-, htag, -⟩ := next_storage_of_not_rFire hr
  constructor
  · intro k hk
    rw [htag]
    exact h.line k (readable_of_next hr hk)
  · intro hw hcnt
    have hs := state_of_next_waitMem hw
    have hidle : c.state ≠ .idle := by rcases hs with hs | hs <;> simp [hs]
    have hq := reqFire_eq_false (i := i) hidle
    have hcntN : (c.next i).fillCnt = c.fillCnt := by simp [ICache.next, hidle, hr]
    have herrN : (c.next i).err = c.err := by simp [ICache.next, hidle, hr]
    rw [hcntN] at hcnt
    rw [fillIndex_next hq, fillTag_next hq, hcntN, herrN]
    rcases hs with hs | hs
    -- no beat of this fill has come in
    · exact absurd (hstart hs) hcnt
    · exact h.fill hs hcnt
  · intro hs herr
    cases hst : c.state with
    | idle =>
        cases hq : c.reqFire i with
        | false => simp [next_state_of_idle hst hq] at hs
        | true =>
            rw [next_state_of_reqFire hq] at hs
            -- only a hit is offered without a fill
            have hh : c.hit i = true := by
              by_contra hh
              simp [hh] at hs
              split_ifs at hs
            have haddr : (c.next i).fillAddr = i.req.bits.addr := by simp [ICache.next, hq]
            rw [fillIndex, fillTag, haddr]
            exact h.of_hit hq hh
    | fillAddr =>
        rw [next_state_of_fillAddr hst] at hs
        split_ifs at hs
    | waitMem =>
        have hd : c.fillDone i = false := by simp [fillDone, hr]
        rw [next_state_of_waitMem hst, hd] at hs
        simp at hs
    | resp =>
        have hq := reqFire_eq_false (i := i) (c := c) (by simp [hst])
        have herrN : (c.next i).err = c.err := by simp [ICache.next, hst, hr]
        rw [herrN] at herr
        rw [fillIndex_next hq, fillTag_next hq]
        exact h.offer hst herr

/-- **A beat keeps the records**, unless it ends a faulting fill on a valid line. -/
theorem FaultInv.next_of_rFire (h : FaultInv c log) (hr : c.rFire i = true)
    (hlast : i.mem.r.bits.last = true ↔ c.fillCnt = 3) (hfault : FaultOverValid c i = false) :
    FaultInv (c.next i)
      (Function.update log c.fillIndex (some (recordBeat c i (log c.fillIndex)))) := by
  have hs := c.state_of_rFire i hr
  have hq := reqFire_eq_false (i := i) (c := c) (by simp [hs])
  have hn := next_state_of_waitMem (i := i) hs
  have herrN : (c.next i).err = c.fillError i := by simp [ICache.next, hs, hr]
  cases hd : c.fillDone i with
  | false =>
      rw [hd] at hn
      refine ⟨fun k hk => ?_, fun _ _ => ?_, fun h => by simp [hn] at h⟩
      · have hne : k ≠ c.fillIndex := fun he => hk.2 ⟨hn, by rw [fillIndex_next hq, he]⟩
        rw [Function.update_of_ne hne, next_tag_of_not_fillDone hd]
        exact h.line k ⟨valid_of_next_valid (Ne.symm hne) hk.1, fun hw => hne hw.2.symm⟩
      · obtain ⟨resps, hrec, hlen, hall⟩ := h.recordBeat_spec hr
        have h3 : c.fillCnt ≠ 3 := fun h3 => by simp [fillDone, hr, hlast.mpr h3] at hd
        have hcntN : (c.next i).fillCnt = c.fillCnt + 1 := by simp [ICache.next, hs, hr]
        refine ⟨resps, ?_, ?_, ?_⟩
        · rw [fillIndex_next hq, fillTag_next hq, Function.update_self, hrec]
        · rw [hlen, hcntN, fillCnt_add_one h3]
        · rwa [herrN]
  | true =>
      have hl : i.mem.r.bits.last = true := by
        simp only [fillDone, Bool.and_eq_true] at hd
        exact hd.2
      have hdone := h.recordBeat_done hd (hlast.mp hl)
      constructor
      · intro k hk
        rw [next_tag_of_fillDone hd]
        by_cases hk' : k = c.fillIndex
        · subst hk'
          rw [Function.update_self, if_pos rfl]
          -- a line still valid after a faulting fill is what the proviso excludes
          have he : c.fillError i = false := by
            by_contra he
            simp only [Bool.not_eq_false] at he
            have hv := hk.1
            simp [ICache.next, hd, he] at hv
            simp [FaultOverValid, hd, he, hv.1, hv.2] at hfault
          rw [hdone he]
        · rw [Function.update_of_ne hk', if_neg hk']
          exact h.line k
            ⟨valid_of_next_valid (Ne.symm hk') hk.1, fun hw => hk' hw.2.symm⟩
      · intro hw
        rw [hn, hd] at hw
        cases hkill : c.isKilled i <;> simp [hkill] at hw
      · intro _ herr
        rw [herrN] at herr
        rw [fillIndex_next hq, fillTag_next hq, Function.update_self, hdone herr]

/-! ## The main theorem -/

/-- The invariant holds where no faulty fill meets a valid line. -/
theorem faultInv {r : (machine α).Run} (hb : AnswersBursts r)
    (hfault : ∀ t, FaultOverValid (r.st t) (r.inp t) = false) (t : ℕ) :
    FaultInv (r.st t) (lastFill r t) := by
  refine r.invariant (fun t c => FaultInv c (lastFill r t)) (fun _ h => FaultInv.of_reset h)
    (fun t h => ?_) t
  have ht := fillTrack hb t
  rw [lastFill, Machine.Run.watch_succ, ← lastFill]
  cases hr : (r.st t).rFire (r.inp t) with
  | false => exact h.next_of_not_rFire ht.start hr
  | true => exact h.next_of_rFire hr (ht.last_iff (hb t) hr) (hfault t)

/-- **Faulting lines do not hit**: if no faulting fill ends on a line that is still
valid, every response without error was filled by four `OKAY` beats for its block. -/
theorem no_error_means_all_okay (r : (machine α).Run) (hb : AnswersBursts r)
    (hfault : ∀ t, FaultOverValid (r.st t) (r.inp t) = false) : ErrorFreeMeansOkay r := by
  intro t hv herr
  have h := faultInv hb hfault t
  simp only [respValid, Bool.and_eq_true, Bool.or_eq_true, decide_eq_true_eq] at hv
  obtain ⟨⟨hr, hh⟩ | hs, -⟩ := hv
  · have hs := (r.st t).state_of_reqFire _ hr
    simp only [respBits, hs, if_true]
    exact h.of_hit hr hh
  · have hne : ¬ (r.st t).state = .idle := by simp [hs]
    simp only [respBits, if_neg hne] at herr ⊢
    exact h.offer hs herr

/-- What the excluded step does: it leaves the line valid under the faulty tag. -/
theorem faultOverValid_leaves_line (hf : FaultOverValid c i = true) :
    (c.next i).validStorage c.fillIndex = true ∧
      (c.next i).tagStorage c.fillIndex = c.fillTag := by
  simp only [FaultOverValid, Bool.and_eq_true, Bool.not_eq_true'] at hf
  obtain ⟨⟨⟨hd, -⟩, hfl⟩, hv⟩ := hf
  exact ⟨by simp [ICache.next, hfl, hv], by simp [next_tag_of_fillDone hd]⟩

/-- A cache that is idle and asked nothing any more does nothing. -/
theorem idle_after {r : (machine α).Run} {n : ℕ} (hs : (r.st n).state = .idle)
    (hq : ∀ t, n ≤ t → (r.inp t).req.valid = false) {t : ℕ} (ht : n ≤ t) :
    (r.st t).state = .idle := by
  induction t, ht using Nat.le_induction with
  | base => exact hs
  | succ t ht ih =>
      rw [r.step t]
      exact next_state_of_idle ih (by simp [reqFire, hq t ht])

/-- A fault on the first fill of a line, and then a request for another block of it. -/
def faultOnEmpty (t : ℕ) : Stimulus :=
  { addr := if t = 0 then some 0x30000000 else if t = 7 then some 0x40000000 else none
    resp := if t = 2 then AXIResp.SLVERR else AXIResp.OKAY }

/-- The faulty fill is answered with an error, and the next request is answered too. -/
theorem faultOnEmpty_ok :
    (((driven faultOnEmpty).st 6).respBits ((driven faultOnEmpty).inp 6)).error = true ∧
      Responds (driven faultOnEmpty) 13 ∧ ErrorFreeMeansOkay (driven faultOnEmpty) := by
  refine ⟨by decide +kernel, by unfold Responds; decide +kernel,
    no_error_means_all_okay _ (driven_answersBursts _) fun t => ?_⟩
  rcases Nat.lt_or_ge t 14 with ht | ht
  · interval_cases t <;> decide +kernel
  · have hidle : ((driven faultOnEmpty).st t).state = .idle := by
      refine idle_after (n := 14) (by decide +kernel) (fun u hu => ?_) ht
      have h0 : u ≠ 0 := by omega
      have h7 : u ≠ 7 := by omega
      simp [driven_env, Stimulus.input, faultOnEmpty, h0, h7]
    simp [FaultOverValid, fillDone_eq_false (c := (driven faultOnEmpty).st t) (by simp [hidle])]

/-- Two blocks of line 0: the first is filled, the second faults, and is asked for again. -/
def faultOnValid (t : ℕ) : Stimulus :=
  { addr := if t = 0 then some 0x30000000
      else if t = 7 ∨ t = 14 then some 0x40000000 else none
    resp := if t = 9 then AXIResp.SLVERR else AXIResp.OKAY }

/-- **A faulting line that hits**: the block at `0x40000000` faults in cycle 9, and its
words are delivered without error in cycle 14. -/
theorem faultOnValid_hits :
    AnswersBursts (driven faultOnValid) ∧ ¬ ErrorFreeMeansOkay (driven faultOnValid) := by
  refine ⟨driven_answersBursts _, fun h => ?_⟩
  have hfill := h 14 (by decide +kernel) (by decide +kernel)
  revert hfill
  decide +kernel

end ICache

end Bailuwan
