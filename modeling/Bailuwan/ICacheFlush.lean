/-
# Freshness after a flush

`fence.i` pulses `flush`, which clears the valid bits.  A word delivered to a request
accepted after the flush should have come from memory after it.

* `fresh_after_flush`: it did, provided no flush arrives while a burst is partly
  received (`MidBurst`);
* `flushMidBurst_is_stale`: without the proviso it need not: the end of the burst
  sets the valid bit again, over words received before the flush.
-/
import Bailuwan.ICacheCorrect

namespace Bailuwan

open Synchronous AXI4

namespace ICache

variable {α : Type*} (r : (machine α).Run)

/-! ## Where a delivered word comes from -/

/-- In cycle `u` a beat of the memory carries the word `w` of the aligned address `a`. -/
def Carries (u : ℕ) (a w : Word) : Prop :=
  (r.st u).rFire (r.inp u) = true ∧ (r.inp u).mem.r.bits.data = w ∧
    ∃ b ∈ burst r u, beatAddr b.ar b.beat = a

/-- Cycle `f` flushes the cache. -/
def Flushes (f : ℕ) : Prop := (r.inp f).flush = true

/-- The word was carried by a beat between the flush at `f` and cycle `t`. -/
def CarriedSince (f t : ℕ) (k : BitVec 26) (x o : BitVec 2) (w : Word) : Prop :=
  ∃ u, f < u ∧ u < t ∧ Carries r u (wordAddr k x o) w

/-- **The statement about flushes**: a response to a request accepted after a flush carries
a word that a beat after the flush has carried. -/
def FreshAfterFlush : Prop :=
  ∀ f a t, Flushes r f → f < a → LastAt (Accepts r) a t →
    (r.st t).respValid (r.inp t) = true →
    ∃ u, f < u ∧ u < t ∧ Carries r u (wordAlign ((r.st t).respBits (r.inp t)).addr)
      ((r.st t).respBits (r.inp t)).data

/-- A burst is partly received at the end of the cycle: beats have come and more are due. -/
def MidBurst (c : ICache α) (i : ICacheIn α) : Bool :=
  decide (c.state = .waitMem) && (decide (c.fillCnt ≠ 0) || c.rFire i) && !c.fillDone i

variable {r}

/-! ## The invariant after a flush -/

/-- A beat carries the word of the block being filled. -/
theorem carries_beat (hb : AnswersBursts r) {t : ℕ} (hr : (r.st t).rFire (r.inp t) = true) :
    Carries r t (wordAddr (r.st t).fillTag (r.st t).fillIndex (r.st t).fillCnt)
      (r.inp t).mem.r.bits.data := by
  obtain ⟨b, hm, haddr⟩ := (fillTrack hb t).beatAddr_eq ((r.st t).state_of_rFire _ hr)
  exact ⟨hr, rfl, b, hm, haddr⟩

/-- The beats since a flush are what the cache has got since then. -/
theorem beatOk_carriedSince (hb : AnswersBursts r) {f t : ℕ} (hft : f < t) :
    BeatOk (fun _ _ => True) (CarriedSince r f (t + 1)) (r.st t) (r.inp t) :=
  fun hr _ => ⟨(fillTrack hb t).last_iff (hb t) hr, t, hft, by omega, carries_beat hb hr⟩

/-- What was carried once was carried. -/
theorem CarriedSince.mono {f t u : ℕ} (htu : t ≤ u) {k : BitVec 26} {x o : BitVec 2}
    {w : Word} : CarriedSince r f t k x o w → CarriedSince r f u k x o w := by
  rintro ⟨v, h1, h2, h3⟩
  exact ⟨v, h1, by omega, h3⟩

/-- Right after a flush nothing is readable, and no word has been received unless the
flush met a burst half way. -/
theorem lineInv_of_flush (hb : AnswersBursts r) {f : ℕ} (hf : Flushes r f)
    (hmid : MidBurst (r.st f) (r.inp f) = false) :
    LineInv (fun _ _ => True) (CarriedSince r f (f + 1)) (r.st (f + 1)) := by
  have hfl : (r.inp f).flush = true := hf
  rw [r.step f]
  constructor
  · intro k hk
    simp [Readable, machine, ICache.next, hfl] at hk
  · intro hw _ o ho
    exfalso
    have hw' : ((r.st f).next (r.inp f)).state = .waitMem := hw
    have hcnt : ((r.st f).next (r.inp f)).fillCnt = 0 := by
      cases hs : (r.st f).state with
      | idle => simp [ICache.next, hs]
      | fillAddr =>
          have hnr := rFire_eq_false (i := r.inp f) (c := r.st f) (by simp [hs])
          simp [ICache.next, hs, hnr, (fillTrack hb f).start hs]
      | waitMem =>
          -- the burst is not over, so by the proviso no beat has come yet
          have hd : (r.st f).fillDone (r.inp f) = false := by
            rw [next_state_of_waitMem hs] at hw'
            by_contra hd
            simp only [Bool.not_eq_false] at hd
            rw [hd] at hw'
            cases hk : (r.st f).isKilled (r.inp f) <;> simp [hk] at hw'
          simp [MidBurst, hs, hd] at hmid
          simp [ICache.next, hs, hmid.1, hmid.2]
      | resp =>
          rw [next_state_of_resp hs] at hw'
          split_ifs at hw'
    have ho' : o < ((r.st f).next (r.inp f)).fillCnt := ho
    rw [hcnt] at ho'
    exact absurd ho' (by simp)

/-- From the flush on, lines hold words carried since, and so does the offer made to a
request accepted since. -/
theorem invariant_since_flush (hb : AnswersBursts r) {f : ℕ} (hf : Flushes r f)
    (hmid : MidBurst (r.st f) (r.inp f) = false) {t : ℕ} (ht : f + 1 ≤ t) :
    LineInv (fun _ _ => True) (CarriedSince r f t) (r.st t) ∧
      ∀ a, f < a → LastAt (Accepts r) a t → (r.st t).state = .resp →
        OfferOk (fun _ _ => True) (CarriedSince r f t) (r.st t) := by
  induction t, ht using Nat.le_induction with
  | base =>
      refine ⟨lineInv_of_flush hb hf hmid, fun a hfa hla hs => ?_⟩
      have ha : a = f + 1 := by have := hla.1; omega
      subst ha
      exact absurd ((r.st (f + 1)).state_of_reqFire _ hla.2.1) (by simp [hs])
  | succ t ht ih =>
      obtain ⟨hline, hoff⟩ := ih
      have hline' : LineInv (fun _ _ => True) (CarriedSince r f (t + 1)) (r.st t) :=
        hline.mono fun _ _ _ _ => CarriedSince.mono (by omega)
      have hbeat := beatOk_carriedSince hb (show f < t by omega)
      rw [r.step t]
      refine ⟨hline'.next (fillTrack hb t).start hbeat, fun a hfa hla hs => ?_⟩
      by_cases hst : (r.st t).state = .resp
      · have hn : ¬ Accepts r (t + 1) := by
          intro h
          have := (r.st (t + 1)).state_of_reqFire _ h
          rw [r.step t, hs] at this
          simp at this
        exact offerOk_of_stay
          (fun hg => CarriedSince.mono (by omega) (hoff a hfa (hla.pred hn) hst hg)) hst
      · exact hline'.offerOk_of_enter hbeat hst hs

/-! ## The main theorem -/

/-- **Freshness after a flush**: if no flush meets a burst half way, every word delivered
to a request accepted after a flush was carried by a beat after that flush. -/
theorem fresh_after_flush (r : (machine α).Run) (hb : AnswersBursts r)
    (hmid : ∀ f, Flushes r f → MidBurst (r.st f) (r.inp f) = false) : FreshAfterFlush r := by
  intro f a t hf hfa hla hv
  have hft : f + 1 ≤ t := by have := hla.1; omega
  obtain ⟨hline, hoff⟩ := invariant_since_flush hb hf (hmid f hf) hft
  have h := hline.respBits_ok (hoff a hfa hla) hv trivial
  rw [CarriedSince, wordAddr_parts] at h
  exact h

/-- A flush before a request: the block is fetched after it. -/
def flushThenFetch (t : ℕ) : Stimulus :=
  { addr := if t = 1 then some 0x30000000 else none, flush := decide (t = 0) }

/-- A fetch after a flush is answered with a word from after the flush. -/
theorem flushThenFetch_fresh :
    (Flushes (driven flushThenFetch) 0 ∧ Accepts (driven flushThenFetch) 1 ∧
      Responds (driven flushThenFetch) 7) ∧ FreshAfterFlush (driven flushThenFetch) := by
  refine ⟨⟨by unfold Flushes; decide, by unfold Accepts; decide, by unfold Responds; decide⟩,
    fresh_after_flush _ (driven_answersBursts _) fun f hf => ?_⟩
  have h0 : f = 0 := by simpa [Flushes, driven_env, Stimulus.input, flushThenFetch] using hf
  subst h0
  decide

/-- A flush, with the kill that comes with it, on the second of four beats; the memory
holds 1 everywhere before it and 2 from then on. -/
def flushMidBurst (t : ℕ) : Stimulus :=
  { addr := if t = 0 ∨ t = 6 then some 0x30000000 else none
    kill := decide (t = 3), flush := decide (t = 3), mem := fun _ => if t < 3 then 1 else 2 }

/-- **The flush that comes half way through a burst**: the request accepted at 6 is
answered with the word of the beat received at 2, before the flush at 3. -/
theorem flushMidBurst_is_stale :
    AnswersBursts (driven flushMidBurst) ∧ ¬ FreshAfterFlush (driven flushMidBurst) := by
  refine ⟨driven_answersBursts _, fun h => ?_⟩
  have hla : LastAt (Accepts (driven flushMidBurst)) 6 7 := by
    refine ⟨by omega, by unfold Accepts; decide, fun u h1 h2 => ?_⟩
    unfold Accepts
    interval_cases u
    decide
  obtain ⟨u, h1, h2, hr, hdata, -⟩ :=
    h 3 6 7 (by unfold Flushes; decide) (by omega) hla (by decide)
  have hold : ((driven flushMidBurst).st 7).respBits ((driven flushMidBurst).inp 7) =
      { data := 1, addr := 0x30000000, error := false, user := () } := by decide
  rw [hold] at hdata
  interval_cases u <;> revert hr hdata <;> decide

end ICache

end Bailuwan
