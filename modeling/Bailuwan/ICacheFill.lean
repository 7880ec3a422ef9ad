/-
# Line fills of the instruction cache

What the three arrays of the cache hold while blocks are filled.  Two invariants
carry everything that is said about delivered words:

* `FillTrack` ties the state machine and `fill_cnt` to the burst the memory is
  answering, so that the beat being received is beat `fill_cnt` of that burst;
* `LineInv G P` says that every word a hit can return satisfies `P`, for the blocks
  singled out by `G`, provided the beats of fills of such blocks do.

`LineInv` and its strengthening `Sound` are stated for any `G` and `P`: correctness
under a fixed memory, freshness after a flush and the use inside the core are instances.
-/
import Bailuwan.ICache

namespace Bailuwan

open Synchronous AXI4

namespace ICache

variable {α : Type*} {c : ICache α} {i : ICacheIn α}

/-! ## One step, state by state -/

/-- An idle cache that accepts nothing stays idle. -/
theorem next_state_of_idle (h : c.state = .idle) (hr : c.reqFire i = false) :
    (c.next i).state = .idle := by
  simp [next, nextState, h, hr]

/-- An accepted request that is not answered at once leaves `s_idle`, unless killed. -/
theorem next_state_of_reqFire (h : c.reqFire i = true) :
    (c.next i).state = if i.kill then .idle
      else if c.hit i then (if c.respFire i then .idle else .resp) else .fillAddr := by
  have hs := c.state_of_reqFire i h
  cases hk : i.kill <;> simp [next, nextState, hs, h, hk, arFire_eq]

/-- An address that is taken leads to `wait_mem`. -/
theorem next_state_of_fillAddr (h : c.state = .fillAddr) :
    (c.next i).state = if c.arFire i then .waitMem else .fillAddr := by
  simp [next, nextState, h]

/-- The last beat of a fill leads to its response, unless the request is killed. -/
theorem next_state_of_waitMem (h : c.state = .waitMem) :
    (c.next i).state =
      if c.fillDone i then (if c.isKilled i then .idle else .resp) else .waitMem := by
  simp [next, nextState, h]

/-- A response that is taken or killed leads to `idle`. -/
theorem next_state_of_resp (h : c.state = .resp) :
    (c.next i).state = if c.respFire i || c.isKilled i then .idle else .resp := by
  simp [next, nextState, h]

/-- What a fill is for changes with an accepted request only. -/
theorem next_fillAddr_of_not_reqFire (h : c.reqFire i = false) :
    (c.next i).fillAddr = c.fillAddr ∧ (c.next i).fillUser = c.fillUser := by
  simp [next, h]

/-- A busy cache accepts nothing. -/
theorem reqFire_eq_false (h : c.state ≠ .idle) : c.reqFire i = false := by
  simp [reqFire, reqReady, h]

/-- A request that is accepted and not killed stays until it is answered. -/
theorem next_idle_iff (hs : c.state ≠ .idle) (hk : c.isKilled i = false) :
    (c.next i).state = .idle ↔ c.respFire i = true := by
  have hq := reqFire_eq_false (i := i) hs
  cases hst : c.state with
  | idle => exact absurd hst hs
  | fillAddr =>
      rw [next_state_of_fillAddr hst]
      cases c.arFire i <;> simp [respFire, respValid, hq, hst]
  | waitMem =>
      rw [next_state_of_waitMem hst, hk]
      cases c.fillDone i <;> simp [respFire, respValid, hq, hst]
  | resp =>
      rw [next_state_of_resp hst, hk]
      cases c.respFire i <;> simp

/-- A request that is killed is not answered. -/
theorem respFire_of_killed (hk : c.isKilled i = true) : c.respFire i = false := by
  simp [respFire, respValid, hk]

theorem rFire_eq_false (h : c.state ≠ .waitMem) : c.rFire i = false := by
  simp [rFire_eq, h]

theorem fillDone_eq_false (h : c.state ≠ .waitMem) : c.fillDone i = false := by
  simp [fillDone, rFire_eq_false h]

theorem arFire_eq_false (h : c.state ≠ .fillAddr) : c.arFire i = false := by
  simp [arFire_eq, h]

/-- Without a beat the storage is unchanged, except that a flush clears valid bits. -/
theorem next_storage_of_not_rFire (h : c.rFire i = false) :
    (c.next i).dataStorage = c.dataStorage ∧ (c.next i).tagStorage = c.tagStorage ∧
      ∀ k, (c.next i).validStorage k = true → c.validStorage k = true := by
  have hd : c.fillDone i = false := by simp [fillDone, h]
  refine ⟨by simp [next, h], by simp [next, hd], fun k => ?_⟩
  simp [next, hd]

/-- A beat is written to its place in the line. -/
theorem next_data_of_rFire (h : c.rFire i = true) (k o : BitVec 2) :
    (c.next i).dataStorage k o =
      if k = c.fillIndex ∧ o = c.fillCnt then i.mem.r.bits.data else c.dataStorage k o := by
  by_cases hk : k = c.fillIndex
  · subst hk
    by_cases ho : o = c.fillCnt <;> simp [next, h, ho]
  · simp [next, h, hk]

/-- The last beat writes the tag of the line. -/
theorem next_tag_of_fillDone (h : c.fillDone i = true) (k : BitVec 2) :
    (c.next i).tagStorage k = if k = c.fillIndex then c.fillTag else c.tagStorage k := by
  by_cases hk : k = c.fillIndex
  · subst hk
    simp [next, h]
  · simp [next, h, hk]

/-- No other cycle does. -/
theorem next_tag_of_not_fillDone (h : c.fillDone i = false) :
    (c.next i).tagStorage = c.tagStorage := by
  simp [next, h]

/-- A valid bit of another line than the one being filled was set before. -/
theorem valid_of_next_valid {k : BitVec 2} (hk : c.fillIndex ≠ k)
    (h : (c.next i).validStorage k = true) : c.validStorage k = true := by
  simp [next, hk] at h
  exact h.2

/-! ## Tracking the burst -/

/-- The burst the memory owes the cache, as seen from the registers: none outside
`s_wait_mem`, and there the burst of the block of `fill_addr` at beat `fill_cnt`. -/
structure FillTrack (c : ICache α) (m : Option ReadBurst) : Prop where
  waiting : c.state = .waitMem → m = some ⟨c.memOut.ar.bits, c.fillCnt.toNat⟩
  quiet : c.state ≠ .waitMem → m = none
  start : c.state = .fillAddr → c.fillCnt = 0

/-- After reset no fill is going on. -/
theorem FillTrack.of_reset (h : c.IsReset) : FillTrack c none where
  waiting hw := by simp [h.state] at hw
  quiet _ := rfl
  start hf := by simp [h.state] at hf

/-- The last beat is the one received at `fill_cnt = 3`. -/
theorem FillTrack.last_iff {m : Option ReadBurst} (ht : FillTrack c m)
    (hb : ReadsInBursts m i.mem) (h : c.rFire i = true) :
    i.mem.r.bits.last = true ↔ c.fillCnt = 3 := by
  have hv : i.mem.r.valid = true := by
    simp only [rFire_eq, Bool.and_eq_true] at h
    exact h.1
  obtain ⟨b, hm, hlast⟩ := hb hv
  rw [ht.waiting (c.state_of_rFire i h)] at hm
  cases hm
  rw [hlast, ← BitVec.toNat_inj]
  rfl

/-- The counter of beats does not wrap before the last one. -/
theorem fillCnt_add_one (h : c.fillCnt ≠ 3) : (c.fillCnt + 1).toNat = c.fillCnt.toNat + 1 := by
  have hne : c.fillCnt.toNat ≠ 3 := fun he => h (BitVec.eq_of_toNat_eq he)
  have hlt := c.fillCnt.isLt
  have h1 : BitVec.toNat (1 : BitVec 2) = 1 := rfl
  have h3 : BitVec.toNat (3 : BitVec 2) = 3 := rfl
  rw [BitVec.toNat_add]
  omega

/-- The memory port only depends on `fill_addr` in its payload. -/
theorem memOut_arBits_next (h : c.reqFire i = false) :
    (c.next i).memOut.ar.bits = c.memOut.ar.bits := by
  simp [memOut, (next_fillAddr_of_not_reqFire h).1]

/-- While it waits for the memory, the burst and the counter move together. -/
theorem FillTrack.next_of_waitMem {m : Option ReadBurst} (ht : FillTrack c m)
    (hb : ReadsInBursts m i.mem) (hs : c.state = .waitMem) :
    FillTrack (c.next i) (readNext m c.memOut i.mem) := by
  have hm := ht.waiting hs
  have hq := memOut_arBits_next (reqFire_eq_false (i := i) (c := c) (by simp [hs]))
  have hn := next_state_of_waitMem (i := i) hs
  cases hr : c.rFire i with
  | false =>
      have hd : c.fillDone i = false := by simp [fillDone, hr]
      rw [hd] at hn
      refine ⟨fun _ => ?_, fun h => by simp [hn] at h, fun h => by simp [hn] at h⟩
      rw [hm, readNext_some_of_not_fire hr, hq]
      simp [ICache.next, hr, hs]
  | true =>
      have hlast := ht.last_iff hb hr
      cases hl : i.mem.r.bits.last with
      | false =>
          have hd : c.fillDone i = false := by simp [fillDone, hl]
          have h3 : c.fillCnt ≠ 3 := fun h => by simp [hlast.mpr h] at hl
          rw [hd] at hn
          refine ⟨fun _ => ?_, fun h => by simp [hn] at h, fun h => by simp [hn] at h⟩
          have hcnt : (c.next i).fillCnt = c.fillCnt + 1 := by simp [ICache.next, hr, hs]
          rw [hm, readNext_some_of_not_last hr hl, hq, hcnt, fillCnt_add_one h3]
      | true =>
          -- the burst ends and the state is left together
          have hd : c.fillDone i = true := by simp [fillDone, hr, hl]
          have hw : (c.next i).state ≠ .waitMem ∧ (c.next i).state ≠ .fillAddr := by
            rw [hn, hd]
            cases c.isKilled i <;> simp
          refine ⟨fun h => absurd h hw.1, fun _ => ?_, fun h => absurd h hw.2⟩
          rw [hm, readNext_some_of_last hr hl]

/-- **One step keeps the burst and the state machine in line.** -/
theorem FillTrack.next {m : Option ReadBurst} (ht : FillTrack c m)
    (hb : ReadsInBursts m i.mem) :
    FillTrack (c.next i) (readNext m c.memOut i.mem) := by
  cases hs : c.state with
  | idle =>
      have hm : m = none := ht.quiet (by simp [hs])
      have har : AXI4.arFire c.memOut i.mem = false := by simp [AXI4.arFire, hs]
      have hw : (c.next i).state ≠ .waitMem := by
        cases hr : c.reqFire i with
        | false => simp [next_state_of_idle hs hr]
        | true => rw [next_state_of_reqFire hr]; split_ifs <;> simp
      refine ⟨fun h => absurd h hw, fun _ => by rw [hm, readNext_none_of_not_fire har], ?_⟩
      -- the counter is cleared in every idle cycle
      intro _
      simp [ICache.next, hs]
  | fillAddr =>
      have hm : m = none := ht.quiet (by simp [hs])
      have hcnt : (c.next i).fillCnt = c.fillCnt := by
        simp [ICache.next, hs, rFire_eq_false (i := i) (c := c) (by simp [hs])]
      have hq := memOut_arBits_next (reqFire_eq_false (i := i) (c := c) (by simp [hs]))
      have hn := next_state_of_fillAddr (i := i) hs
      cases har : c.arFire i with
      | false =>
          rw [har] at hn
          refine ⟨fun h => by simp [hn] at h,
            fun _ => by rw [hm, readNext_none_of_not_fire har], fun _ => ?_⟩
          rw [hcnt]
          exact ht.start hs
      | true =>
          rw [har] at hn
          refine ⟨fun _ => ?_, fun h => by simp [hn] at h, fun h => by simp [hn] at h⟩
          rw [hm, readNext_none_of_fire har, hq, hcnt, ht.start hs]
          rfl
  | waitMem => exact ht.next_of_waitMem hb hs
  | resp =>
      have hm : m = none := ht.quiet (by simp [hs])
      have har : AXI4.arFire c.memOut i.mem = false := by simp [AXI4.arFire, hs]
      have hn := next_state_of_resp (i := i) hs
      have hw : (c.next i).state ≠ .waitMem ∧ (c.next i).state ≠ .fillAddr := by
        rw [hn]
        split_ifs <;> simp
      exact ⟨fun h => absurd h hw.1, fun _ => by rw [hm, readNext_none_of_not_fire har],
        fun h => absurd h hw.2⟩

/-! ## What the lines hold -/

section Lines

variable (G : BitVec 26 → BitVec 2 → Prop) (P : BitVec 26 → BitVec 2 → BitVec 2 → Word → Prop)

/-- A line a hit may read: valid, and not the one a burst is being written into. -/
def Readable (c : ICache α) (k : BitVec 2) : Prop :=
  c.validStorage k = true ∧ ¬ (c.state = .waitMem ∧ c.fillIndex = k)

/-- For the blocks satisfying `G`, the words of readable lines and the words received
so far of the block being filled satisfy `P`. -/
structure LineInv (c : ICache α) : Prop where
  line : ∀ k, c.Readable k → G (c.tagStorage k) k →
    ∀ o, P (c.tagStorage k) k o (c.dataStorage k o)
  fill : c.state = .waitMem → G c.fillTag c.fillIndex →
    ∀ o, o < c.fillCnt → P c.fillTag c.fillIndex o (c.dataStorage c.fillIndex o)

/-- The word the response state offers satisfies `P`. -/
def OfferOk (c : ICache α) : Prop :=
  G c.fillTag c.fillIndex →
    P c.fillTag c.fillIndex c.fillOffset (c.dataStorage c.fillIndex c.fillOffset)

/-- A beat received for a block satisfying `G` carries a word satisfying `P`, and the
fourth beat is the last one. -/
def BeatOk (c : ICache α) (i : ICacheIn α) : Prop :=
  c.rFire i = true → G c.fillTag c.fillIndex →
    (i.mem.r.bits.last = true ↔ c.fillCnt = 3) ∧
      P c.fillTag c.fillIndex c.fillCnt i.mem.r.bits.data

/-- After reset no line is readable. -/
theorem LineInv.of_reset (h : c.IsReset) : LineInv G P c where
  line k hk := by simp [Readable, h.validStorage] at hk
  fill hw := by simp [h.state] at hw

variable {G P}

/-- The invariant holds for weaker contents too. -/
theorem LineInv.mono {P' : BitVec 26 → BitVec 2 → BitVec 2 → Word → Prop}
    (hi : LineInv G P c) (h : ∀ t k o w, P t k o w → P' t k o w) : LineInv G P' c where
  line k hk hg o := h _ _ _ _ (hi.line k hk hg o)
  fill hw hg o ho := h _ _ _ _ (hi.fill hw hg o ho)

/-- The tag of a fill stays until the next request. -/
theorem fillTag_next (h : c.reqFire i = false) : (c.next i).fillTag = c.fillTag := by
  simp [fillTag, (next_fillAddr_of_not_reqFire h).1]

theorem fillIndex_next (h : c.reqFire i = false) : (c.next i).fillIndex = c.fillIndex := by
  simp [fillIndex, (next_fillAddr_of_not_reqFire h).1]

theorem fillOffset_next (h : c.reqFire i = false) : (c.next i).fillOffset = c.fillOffset := by
  simp [fillOffset, (next_fillAddr_of_not_reqFire h).1]

/-- Without a beat no line becomes readable. -/
theorem readable_of_next {k : BitVec 2} (hr : c.rFire i = false) (hk : (c.next i).Readable k) :
    c.Readable k := by
  refine ⟨(next_storage_of_not_rFire hr).2.2 k hk.1, fun h => hk.2 ?_⟩
  have hd : c.fillDone i = false := by simp [fillDone, hr]
  have hq := reqFire_eq_false (i := i) (c := c) (by simp [h.1])
  exact ⟨by simp [next_state_of_waitMem h.1, hd], (fillIndex_next hq).trans h.2⟩

/-- The data phase begins with an address handshake or goes on. -/
theorem state_of_next_waitMem (h : (c.next i).state = .waitMem) :
    c.state = .fillAddr ∨ c.state = .waitMem := by
  cases hs : c.state with
  | idle =>
      cases hq : c.reqFire i with
      | false => simp [next_state_of_idle hs hq] at h
      | true => rw [next_state_of_reqFire hq] at h; split_ifs at h
  | fillAddr => exact Or.inl rfl
  | waitMem => exact Or.inr rfl
  | resp => rw [next_state_of_resp hs] at h; split_ifs at h

/-- A hit delivers a word of a readable line. -/
theorem LineInv.of_hit (hi : LineInv G P c) (hr : c.reqFire i = true) (hh : c.hit i = true)
    (hg : G (tagOf i.req.bits.addr) (indexOf i.req.bits.addr)) :
    P (tagOf i.req.bits.addr) (indexOf i.req.bits.addr) (offsetOf i.req.bits.addr)
      (c.dataStorage (indexOf i.req.bits.addr) (offsetOf i.req.bits.addr)) := by
  have hs := c.state_of_reqFire i hr
  simp only [hit, readIndex, hs, if_true, Bool.and_eq_true, decide_eq_true_eq] at hh
  obtain ⟨⟨-, hv⟩, htag⟩ := hh
  rw [← htag] at hg ⊢
  exact hi.line _ ⟨hv, fun h => by simp [hs] at h⟩ hg _

/-- After the last beat all four words of the block are good. -/
theorem LineInv.block_of_fillDone (hi : LineInv G P c) (hb : BeatOk G P c i)
    (hd : c.fillDone i = true) (hg : G c.fillTag c.fillIndex) (o : BitVec 2) :
    P c.fillTag c.fillIndex o ((c.next i).dataStorage c.fillIndex o) := by
  have hr := c.rFire_of_fillDone i hd
  have hl : i.mem.r.bits.last = true := by
    simp only [fillDone, Bool.and_eq_true] at hd
    exact hd.2
  obtain ⟨hlast, hp⟩ := hb hr hg
  have h3 := hlast.mp hl
  rw [next_data_of_rFire hr]
  by_cases hoc : o = c.fillCnt
  · subst hoc
    simpa using hp
  · rw [if_neg (fun h => hoc h.2)]
    refine hi.fill (c.state_of_rFire i hr) hg o ?_
    have hne : o.toNat ≠ c.fillCnt.toNat := fun h => hoc (BitVec.eq_of_toNat_eq h)
    have hlt := o.isLt
    have h3' : c.fillCnt.toNat = 3 := by rw [h3]; rfl
    rw [BitVec.lt_def]
    omega

/-- A cycle without a beat keeps the lines. -/
theorem LineInv.next_of_not_rFire (hi : LineInv G P c)
    (hstart : c.state = .fillAddr → c.fillCnt = 0) (hr : c.rFire i = false) :
    LineInv G P (c.next i) := by
  obtain ⟨hdata, htag, -⟩ := next_storage_of_not_rFire hr
  constructor
  · intro k hk hg o
    rw [htag] at hg ⊢
    rw [hdata]
    exact hi.line k (readable_of_next hr hk) hg o
  · -- the data phase is either just beginning or idling between two beats
    intro hw hg
    have hs := state_of_next_waitMem hw
    have hidle : c.state ≠ .idle := by rcases hs with hs | hs <;> simp [hs]
    have hq := reqFire_eq_false (i := i) hidle
    have hcnt : (c.next i).fillCnt = c.fillCnt := by simp [ICache.next, hidle, hr]
    rw [fillTag_next hq, fillIndex_next hq] at hg ⊢
    rw [hcnt, hdata]
    rcases hs with hs | hs
    · intro o ho
      rw [hstart hs] at ho
      exact absurd ho (by simp)
    · exact hi.fill hs hg

/-- A beat leaves the words of the other lines. -/
theorem LineInv.other_line (hi : LineInv G P c) (hr : c.rFire i = true) {k : BitVec 2}
    (hne : c.fillIndex ≠ k) (hv : (c.next i).validStorage k = true) (hg : G (c.tagStorage k) k)
    (o : BitVec 2) : P (c.tagStorage k) k o ((c.next i).dataStorage k o) := by
  rw [next_data_of_rFire hr, if_neg (fun h => hne h.1.symm)]
  exact hi.line k ⟨valid_of_next_valid hne hv, fun h => hne h.2⟩ hg o

/-- A beat that is not the last one adds a word to the line being filled. -/
theorem LineInv.next_of_beat (hi : LineInv G P c) (hb : BeatOk G P c i) (hr : c.rFire i = true)
    (hd : c.fillDone i = false) : LineInv G P (c.next i) := by
  have hs := c.state_of_rFire i hr
  have hq := reqFire_eq_false (i := i) (c := c) (by simp [hs])
  have hidx := fillIndex_next hq
  have hn := next_state_of_waitMem (i := i) hs
  rw [hd] at hn
  have htag := next_tag_of_not_fillDone hd
  constructor
  · intro k hk hg o
    have hne : c.fillIndex ≠ k := fun h => hk.2 ⟨hn, by rw [hidx]; exact h⟩
    rw [htag] at hg ⊢
    exact hi.other_line hr hne hk.1 hg o
  · intro _ hg o ho
    rw [fillTag_next hq, hidx] at hg ⊢
    obtain ⟨hlast, hp⟩ := hb hr hg
    have h3 : c.fillCnt ≠ 3 := fun h => by simp [fillDone, hr, hlast.mpr h] at hd
    have hcnt : (c.next i).fillCnt = c.fillCnt + 1 := by simp [ICache.next, hs, hr]
    rw [next_data_of_rFire hr]
    by_cases hoc : o = c.fillCnt
    · subst hoc
      simpa using hp
    · rw [if_neg (fun h => hoc h.2)]
      refine hi.fill hs hg o ?_
      rw [hcnt, BitVec.lt_def, fillCnt_add_one h3] at ho
      have hne : o.toNat ≠ c.fillCnt.toNat := fun h => hoc (BitVec.eq_of_toNat_eq h)
      rw [BitVec.lt_def]
      omega

/-- The last beat completes the line being filled. -/
theorem LineInv.next_of_fillDone (hi : LineInv G P c) (hb : BeatOk G P c i)
    (hd : c.fillDone i = true) : LineInv G P (c.next i) := by
  have hr : c.rFire i = true := by
    simp only [fillDone, Bool.and_eq_true] at hd
    exact hd.1
  have hn := next_state_of_waitMem (i := i) (c.state_of_rFire i hr)
  have htag := next_tag_of_fillDone hd
  constructor
  · intro k hk hg o
    by_cases hk' : k = c.fillIndex
    · subst hk'
      rw [htag, if_pos rfl] at hg ⊢
      exact hi.block_of_fillDone hb hd hg o
    · rw [htag, if_neg hk'] at hg ⊢
      exact hi.other_line hr (fun h => hk' h.symm) hk.1 hg o
  · intro h
    rw [hn, hd] at h
    cases hkill : c.isKilled i <;> simp [hkill] at h

/-- **One step keeps the lines good**, whatever is requested, killed or flushed. -/
theorem LineInv.next (hi : LineInv G P c) (hstart : c.state = .fillAddr → c.fillCnt = 0)
    (hb : BeatOk G P c i) : LineInv G P (c.next i) := by
  cases hr : c.rFire i with
  | false => exact hi.next_of_not_rFire hstart hr
  | true =>
      cases hd : c.fillDone i with
      | false => exact hi.next_of_beat hb hr hd
      | true => exact hi.next_of_fillDone hb hd

/-- On entry to the response state the word offered is good: a hit reads a line, and
the end of a fill leaves a good block. -/
theorem LineInv.offerOk_of_enter (hi : LineInv G P c) (hb : BeatOk G P c i)
    (hs : c.state ≠ .resp) (h : (c.next i).state = .resp) : OfferOk G P (c.next i) := by
  intro hg
  cases hst : c.state with
  | idle =>
      cases hr : c.reqFire i with
      | false => simp [next_state_of_idle hst hr] at h
      | true =>
          rw [next_state_of_reqFire hr] at h
          have hh : c.hit i = true := by
            by_contra hh
            simp [hh] at h
            split_ifs at h
          have hnr := rFire_eq_false (i := i) (c := c) (by simp [hst])
          obtain ⟨hdata, -, -⟩ := next_storage_of_not_rFire hnr
          have haddr : (c.next i).fillAddr = i.req.bits.addr := by simp [ICache.next, hr]
          simp only [fillTag, fillIndex, fillOffset, haddr, hdata] at hg ⊢
          exact hi.of_hit hr hh hg
  | fillAddr =>
      rw [next_state_of_fillAddr hst] at h
      split_ifs at h
  | waitMem =>
      have hq := reqFire_eq_false (i := i) (c := c) (by simp [hst])
      rw [next_state_of_waitMem hst] at h
      have hd : c.fillDone i = true := by
        by_contra hd
        simp [hd] at h
      rw [fillTag_next hq, fillIndex_next hq] at hg
      rw [fillTag_next hq, fillIndex_next hq, fillOffset_next hq]
      exact hi.block_of_fillDone hb hd hg _
  | resp => exact absurd hst hs

/-- While the response waits, the word offered does not change. -/
theorem offerOk_of_stay (h : OfferOk G P c) (hs : c.state = .resp) :
    OfferOk G P (c.next i) := by
  have hq := reqFire_eq_false (i := i) (c := c) (by simp [hs])
  have hnr := rFire_eq_false (i := i) (c := c) (by simp [hs])
  obtain ⟨hdata, -, -⟩ := next_storage_of_not_rFire hnr
  intro hg
  rw [fillTag_next hq, fillIndex_next hq] at hg
  rw [fillTag_next hq, fillIndex_next hq, fillOffset_next hq, hdata]
  exact h hg

/-- **The word of a response**: it comes from a readable line on an immediate hit, and is
the word offered in the response state otherwise. -/
theorem LineInv.respBits_ok (hi : LineInv G P c) (hoff : c.state = .resp → OfferOk G P c)
    (hv : c.respValid i = true)
    (hg : G (tagOf (c.respBits i).addr) (indexOf (c.respBits i).addr)) :
    P (tagOf (c.respBits i).addr) (indexOf (c.respBits i).addr)
      (offsetOf (c.respBits i).addr) (c.respBits i).data := by
  simp only [respValid, Bool.and_eq_true, Bool.or_eq_true, decide_eq_true_eq] at hv
  obtain ⟨⟨hr, hh⟩ | hs, -⟩ := hv
  · have hs := c.state_of_reqFire i hr
    simp only [respBits, readIndex, readOffset, hs, if_true] at hg ⊢
    exact hi.of_hit hr hh hg
  · have hne : ¬ c.state = .idle := by simp [hs]
    simp only [respBits, readIndex, readOffset, if_neg hne] at hg ⊢
    exact hoff hs hg

/-! ## Blocks whose beats never fault -/

variable (G P)

/-- Lines and offers are good, and no error is pending for a block satisfying `G`. -/
structure Sound (c : ICache α) : Prop where
  lines : LineInv G P c
  offer : c.state = .resp → OfferOk G P c
  err : c.state ≠ .idle → G c.fillTag c.fillIndex → c.err = false

/-- A cache after reset is sound. -/
theorem Sound.of_reset (h : c.IsReset) : Sound G P c where
  lines := LineInv.of_reset G P h
  offer hs := by simp [h.state] at hs
  err hs := absurd h.state hs

variable {G P}

/-- A cycle keeps it sound, if the beat it gets is right and arrives without an error. -/
theorem Sound.next (hi : Sound G P c) (hstart : c.state = .fillAddr → c.fillCnt = 0)
    (hb : BeatOk G P c i)
    (hresp : c.rFire i = true → G c.fillTag c.fillIndex → i.mem.r.bits.resp = AXIResp.OKAY) :
    Sound G P (c.next i) where
  lines := hi.lines.next hstart hb
  offer hs := by
    by_cases h : c.state = .resp
    · exact offerOk_of_stay (hi.offer h) h
    · exact hi.lines.offerOk_of_enter hb h hs
  err hs hg := by
    by_cases hidle : c.state = .idle
    · simp [ICache.next, hidle]
    · have hq := reqFire_eq_false (i := i) hidle
      rw [fillTag_next hq, fillIndex_next hq] at hg
      have herr := hi.err hidle hg
      cases hr : c.rFire i with
      | false => simp [ICache.next, hidle, hr, herr]
      | true => simp [ICache.next, hidle, hr, fillError, memRespErr, herr, hresp hr hg]

/-- **Delivered words are good and not marked faulty.** -/
theorem Sound.respBits_ok (hi : Sound G P c) (hv : c.respValid i = true)
    (hg : G (tagOf (c.respBits i).addr) (indexOf (c.respBits i).addr)) :
    (c.respBits i).error = false ∧
      P (tagOf (c.respBits i).addr) (indexOf (c.respBits i).addr)
        (offsetOf (c.respBits i).addr) (c.respBits i).data := by
  refine ⟨?_, hi.lines.respBits_ok hi.offer hv hg⟩
  by_cases hs : c.state = .idle
  · simp [respBits, hs]
  · simp only [respBits, if_neg hs] at hg ⊢
    exact hi.err hs hg

end Lines

end ICache

end Bailuwan
