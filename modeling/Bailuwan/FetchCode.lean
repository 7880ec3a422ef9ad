/-
# Fetching a program

A program is given by the addresses it executes and the word at each of them (`Code`).
What the fetch unit holds for such an address is the word of the program, without an
exception, and predicted to go elsewhere only if it is a branch.  Nothing is said about
the addresses the program does not execute, where the fetch unit may go speculatively.
-/
import Bailuwan.FetchStream
import Bailuwan.ICacheFill
import Bailuwan.IDU
import Bailuwan.MemoryMap

namespace Bailuwan

open Synchronous AXI4 Bailuwan.Core

/-- The addresses a program executes, all in the memory, and the word at each. -/
structure Code where
  Runs : Word → Prop
  word : Word → Word
  aligned : ∀ {pc}, Runs pc → pc.toNat % 4 = 0
  routed : ∀ {pc}, Runs pc → candidate slavesMap pc = 0

namespace Code

variable (p : Code)

/-- The instruction at an address is a branch or a jump. -/
def Branches (pc : Word) : Prop := (IDU.decode (p.word pc)).brOp ≠ .nop

/-- A block with an instruction of the program. -/
def Block (t : BitVec 26) (k : BitVec 2) : Prop := ∃ o, p.Runs (wordAddr t k o)

/-- A word of a block, if it is an instruction of the program. -/
def Holds (t : BitVec 26) (k o : BitVec 2) (w : Word) : Prop :=
  p.Runs (wordAddr t k o) → w = p.word (wordAddr t k o)

/-- A prediction made for an address. -/
def Predicts (pc : Word) (taken : Bool) : Prop := p.Runs pc → taken = true → p.Branches pc

/-- An instruction handed over by the fetch unit. -/
structure Fetched (o : IFUOut) : Prop where
  inst : p.Runs o.pc → o.inst = p.word o.pc
  noExcp : p.Runs o.pc → o.exception.valid = false
  predicts : p.Predicts o.pc o.predictTaken

variable {p}

/-! ## Addresses -/

/-- The line of an instruction has it in its place. -/
theorem wordAddr_of_runs {pc : Word} (h : p.Runs pc) :
    wordAddr (tagOf pc) (indexOf pc) (offsetOf pc) = pc := by
  rw [wordAddr_parts]
  apply BitVec.eq_of_toNat_eq
  have := p.aligned h
  rw [toNat_wordAlign]
  omega

/-- The line of an instruction is one of the program. -/
theorem block_of_runs {pc : Word} (h : p.Runs pc) : p.Block (tagOf pc) (indexOf pc) :=
  ⟨offsetOf pc, by rwa [wordAddr_of_runs h]⟩

/-- The ranges of the memory begin at block boundaries. -/
theorem candidate_blockAlign {a : Word} (h : candidate slavesMap a = 0) :
    candidate slavesMap (a &&& blockAlignMask) = 0 := by
  have hsoc : ∀ x : Word, candidate slavesMap x = 0 ↔ addrMatches socRanges x = true := by
    intro x
    rw [← routes_soc_iff, AXI4CrossBar.routes_iff]
  rw [hsoc] at h ⊢
  simp only [addrMatches, List.any_eq_true, Bool.and_eq_true, decide_eq_true_eq,
    toNat_blockAlign] at h ⊢
  obtain ⟨rng, hmem, hlo, hhi⟩ := h
  have h16 : ∀ rng ∈ socRanges, rng.1 % 16 = 0 := by decide
  have := h16 rng hmem
  exact ⟨rng, hmem, by omega, by omega⟩

/-- Blocks of the program are filled from the memory. -/
theorem Block.routed {α : Type*} {c : ICache α} (h : p.Block c.fillTag c.fillIndex) :
    candidate slavesMap c.memOut.ar.bits.addr = 0 := by
  obtain ⟨o, ho⟩ := h
  have hbase : c.memOut.ar.bits.addr = wordAddr c.fillTag c.fillIndex o &&& blockAlignMask := by
    apply BitVec.eq_of_toNat_eq
    have hlt := o.isLt
    have ha := c.fillAddr.isLt
    rw [toNat_blockAlign, toNat_wordAddr, ICache.fillTag, ICache.fillIndex, toNat_tagOf,
      toNat_indexOf]
    exact (toNat_blockAlign c.fillAddr).trans (by omega)
  rw [hbase]
  exact candidate_blockAlign (p.routed ho)

/-! ## Predictions -/

/-- The entries of the branch target buffer belong to branches of the program. -/
def Trained (p : Code) (b : BTB) : Prop := ∀ k, b.validStorage k = true →
  ∃ pc, p.Runs pc ∧ p.Branches pc ∧ BTB.idxOf pc = k ∧ BTB.tagOf pc = b.tagStorage k

/-- Two instructions with an index and a tag are one. -/
theorem eq_of_idx_tag {pc pc' : Word} (h : p.Runs pc) (h' : p.Runs pc')
    (hi : BTB.idxOf pc = BTB.idxOf pc') (ht : BTB.tagOf pc = BTB.tagOf pc') : pc = pc' := by
  have h4 := p.aligned h
  have h4' := p.aligned h'
  have hi' := congrArg BitVec.toNat hi
  have ht' := congrArg BitVec.toNat ht
  simp only [BTB.idxOf, BTB.tagOf, toNat_field] at hi' ht'
  apply BitVec.eq_of_toNat_eq
  have hlt := pc.isLt
  have hlt' := pc'.isLt
  omega

/-- **Only branches are predicted taken.** -/
theorem Trained.predicts {u : BPU} (h : p.Trained u.btb) (pc : Word) :
    p.Predicts pc (u.predictTaken pc) := by
  intro hr ht
  have hh : u.btb.hit pc = true := by
    simp only [BPU.predictTaken, BPU.valid, Bool.and_eq_true] at ht
    exact ht.1
  simp only [BTB.hit, Bool.and_eq_true, decide_eq_true_eq] at hh
  obtain ⟨pc', hr', hb, hi, htag⟩ := h _ hh.1
  rwa [eq_of_idx_tag hr hr' hi.symm (hh.2.symm.trans htag.symm)]

/-- What is trained with branches of the program stays so. -/
theorem Trained.next {b : BTB} (h : p.Trained b) {w : BTBWrite}
    (hw : w.en = true → p.Runs w.pc ∧ p.Branches w.pc) : p.Trained (b.next w) := by
  intro k hk
  cases hen : w.en with
  | false =>
      simp only [BTB.next, hen, Bool.false_eq_true, if_false] at hk ⊢
      exact h k hk
  | true =>
      simp only [BTB.next, hen, if_true] at hk ⊢
      by_cases hkw : k = BTB.idxOf w.pc
      · subst hkw
        rw [Function.update_self]
        exact ⟨w.pc, (hw hen).1, (hw hen).2, rfl, rfl⟩
      · rw [Function.update_of_ne hkw] at hk ⊢
        exact h k hk

/-! ## The fetch unit -/

/-- What the fetch unit holds for the addresses of the program. -/
structure Fetching (p : Code) (f : IFU) : Prop where
  cache : ICache.Sound p.Block p.Holds f.icache
  user : f.icache.state ≠ .idle → p.Predicts f.icache.fillAddr f.icache.fillUser.predictTaken
  trained : p.Trained f.bpu.btb
  queue : ∀ o ∈ f.queue, p.Fetched o

/-- After reset the fetch unit is at the beginning of the program. -/
theorem Fetching.of_reset {f : IFU} (h : f.IsReset) : p.Fetching f where
  cache := ICache.Sound.of_reset _ _ h.icache
  user hs := absurd h.icache.state hs
  trained k hk := by simp [h.bpu.btb.validStorage] at hk
  queue o ho := by simp [h.queue] at ho

variable {f : IFU} {i : IFUIn}

/-- What enters the queue. -/
theorem Fetching.enqBits (h : p.Fetching f) (hr : f.respFire i = true) :
    p.Fetched (f.enqBits i) := by
  have hv : f.icache.respValid (f.icacheIn i) = true := (Bool.and_eq_true_iff.mp hr).1
  have hword : p.Runs (f.resp i).addr →
      (f.resp i).error = false ∧ (f.resp i).data = p.word (f.resp i).addr := by
    intro hruns
    obtain ⟨herr, hdata⟩ : (f.resp i).error = false ∧ p.Holds (tagOf (f.resp i).addr)
        (indexOf (f.resp i).addr) (offsetOf (f.resp i).addr) (f.resp i).data :=
      h.cache.respBits_ok hv (block_of_runs hruns)
    rw [Holds, wordAddr_of_runs hruns] at hdata
    exact ⟨herr, hdata hruns⟩
  refine ⟨fun hruns => (hword hruns).2, fun hruns => ?_, ?_⟩
  · have halign : (f.resp i).addr.extractLsb' 0 2 = 0 := by
      have h4 : (f.resp i).addr.toNat % 4 = 0 := p.aligned hruns
      apply BitVec.eq_of_toNat_eq
      simpa [BitVec.extractLsb'_toNat] using h4
    have herr := (hword hruns).1
    simp only [IFU.enqBits, IFU.excp, halign, herr]
    rfl
  · by_cases hs : f.icache.state = .idle
    -- an immediate hit answers the request of this cycle
    · have haddr : (f.enqBits i).pc = f.pc := by
        simp [IFU.enqBits, IFU.resp, ICache.respBits, hs, IFU.icacheIn]
      have huser : (f.enqBits i).predictTaken = f.bpu.predictTaken f.pc := by
        simp [IFU.enqBits, IFU.resp, ICache.respBits, hs, IFU.icacheIn, IFU.predictTaken]
      rw [haddr, huser]
      exact h.trained.predicts f.pc
    -- any other response is to the request the cache holds
    · have haddr : (f.enqBits i).pc = f.icache.fillAddr := by
        simp [IFU.enqBits, IFU.resp, ICache.respBits, hs]
      have huser : (f.enqBits i).predictTaken = f.icache.fillUser.predictTaken := by
        simp [IFU.enqBits, IFU.resp, ICache.respBits, hs]
      rw [haddr, huser]
      exact h.user hs

/-- What it delivers is an instruction of the program. -/
theorem Fetching.delivers (h : p.Fetching f) {o : IFUOut} (ho : f.delivers i = some o) :
    p.Fetched o := by
  simp only [IFU.delivers, IFU.out] at ho
  split_ifs at ho
  exact h.queue o (List.mem_of_mem_head? (by simp [ho]))

/-- **One cycle of the fetch unit.**  The beats of the blocks of the program carry its
words, and the buffer is trained with its branches. -/
theorem Fetching.next (h : p.Fetching f)
    (hstart : f.icache.state = .fillAddr → f.icache.fillCnt = 0)
    (hbeat : ICache.BeatOk p.Block p.Holds f.icache (f.icacheIn i))
    (hresp : f.icache.rFire (f.icacheIn i) = true → p.Block f.icache.fillTag f.icache.fillIndex →
      i.mem.r.bits.resp = AXIResp.OKAY)
    (hbtb : i.btbW.en = true → p.Runs i.btbW.pc ∧ p.Branches i.btbW.pc) :
    p.Fetching (f.next i) where
  cache := h.cache.next hstart hbeat hresp
  user hs := by
    cases hq : f.reqFire i with
    | true =>
        have hq' : f.icache.reqFire (f.icacheIn i) = true := hq
        simp only [IFU.next, ICache.next, hq', if_true]
        exact h.trained.predicts f.pc
    | false =>
        have hq' : f.icache.reqFire (f.icacheIn i) = false := hq
        have hne : f.icache.state ≠ .idle := fun hidle =>
          hs (ICache.next_state_of_idle hidle hq')
        simp only [IFU.next, ICache.next, hq', Bool.false_eq_true, if_false]
        exact h.user hne
  trained := h.trained.next hbtb
  queue o ho := by
    simp only [IFU.next] at ho
    split_ifs at ho with hred hdel hresp' hresp'
    -- a redirect empties the queue
    · simp at ho
    · rcases List.mem_append.mp ho with ho | ho
      · exact h.queue o (List.mem_of_mem_tail ho)
      · rw [List.mem_singleton.mp ho]
        exact h.enqBits hresp'
    · exact h.queue o (List.mem_of_mem_tail (by simpa using ho))
    · rcases List.mem_append.mp ho with ho | ho
      · exact h.queue o ho
      · rw [List.mem_singleton.mp ho]
        exact h.enqBits hresp'
    · exact h.queue o (by simpa using ho)

end Code

end Bailuwan
