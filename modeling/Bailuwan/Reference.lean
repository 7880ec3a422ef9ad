/-
# Programs on the reference model

The run of a program on the reference model from reset (`reference`), and the programs
the core is compared on (`Program`): supported instructions, and no store to the code.
Their code is stable, so that it is a `Code` of the fetch unit (`Program.code`).
-/
import Bailuwan.FetchCode
import Bailuwan.Issue

namespace Bailuwan

open Nemu

/-! ## The run of a program -/

/-- The state of the reference model after `n` instructions from reset. -/
def reference (init : Bytes) (n : ℕ) : CPU := run (restart resetVector init) n

/-- An address belongs to the memory behind the external port. -/
def InMemory (a : Word) : Prop := candidate Core.slavesMap a = 0

/-- The programs in question, given by the initial memory: they execute supported
instructions only, and no instruction stores into one that is executed. -/
structure Program (init : Bytes) : Prop where
  supported : ∀ n, (reference init n).Supported InMemory
  noSelfModification : ∀ n k e st, decodeExec (reference init n) = some e → e.store = some st →
    wordAlign st.addr ≠ (reference init k).pc

namespace Program

variable {init : Bytes} (p : Program init)

include p

/-! ## One instruction -/

/-- Every instruction has an effect. -/
theorem effect (n : ℕ) : ∃ e, decodeExec (reference init n) = some e := by
  exact ⟨_, (issues_issued _).effect (p.supported n) 0⟩

omit p in

/-- The reference executes one instruction after the other. -/
theorem reference_succ {n : ℕ} {e : Effect} (he : decodeExec (reference init n) = some e) :
    reference init (n + 1) = (reference init n).apply e := by
  have h : reference init (n + 1) = (decodeExec (reference init n)).elim (reference init n)
    (reference init n).apply := rfl
  rw [h, he]
  rfl

/-- No instruction assigns to a register above `x15`. -/
theorem rd_lt {n : ℕ} {e : Effect} (he : decodeExec (reference init n) = some e)
    {rd : BitVec 5} {v : Word} (hrd : e.rd = some (rd, v)) : rd.toNat < 16 := by
  have hs := p.supported n
  have hissue := issues_issued (reference init n)
  rw [hissue.effect hs 0, Option.some_inj] at he
  subst he
  simp only [coreEffect] at hrd
  split_ifs at hrd with hwe
  simp only [Option.some_inj, Prod.mk.injEq] at hrd
  rw [← hrd.1]
  exact (hissue.row hs).rd hwe

/-- Register 0 is 0 in every state. -/
theorem gpr_zero (n : ℕ) : (reference init n).gpr 0 = 0 := by
  cases n with
  | zero => rfl
  | succ n =>
      obtain ⟨e, he⟩ := p.effect n
      rw [reference_succ he, CPU.apply_gpr_zero]

/-! ## The code is stable -/

omit p in
/-- A store that fits in a word changes no other word. -/
theorem wordAt_write {b : Bytes} {addr pc data : Word} {len : ℕ} (hfit : addr.toNat % 4 + len ≤ 4)
    (hpc : pc.toNat % 4 = 0) (hne : wordAlign addr ≠ pc) :
    wordAt (write b addr len data) pc = wordAt b pc := by
  have hbyte : ∀ k : ℕ, k < 4 → write b addr len data (pc + BitVec.ofNat 32 k) =
      b (pc + BitVec.ofNat 32 k) := by
    intro k hk
    refine if_neg fun hin => hne ?_
    apply BitVec.eq_of_toNat_eq
    have ha := addr.isLt
    have hp := pc.isLt
    rw [BitVec.toNat_sub, BitVec.toNat_add, BitVec.toNat_ofNat] at hin
    rw [toNat_wordAlign]
    omega
  have h0 : write b addr len data pc = b pc := by simpa using hbyte 0 (by decide)
  have h1 : write b addr len data (pc + 1) = b (pc + 1) := hbyte 1 (by decide)
  have h2 : write b addr len data (pc + 2) = b (pc + 2) := hbyte 2 (by decide)
  have h3 : write b addr len data (pc + 3) = b (pc + 3) := hbyte 3 (by decide)
  simp only [wordAt, h0, h1, h2, h3]

/-- The words of the program stay. -/
theorem wordAt_mem (n k : ℕ) :
    wordAt (reference init n).mem (reference init k).pc = wordAt init (reference init k).pc := by
  induction n with
  | zero => rfl
  | succ n ih =>
      obtain ⟨e, he⟩ := p.effect n
      rw [reference_succ he, ← ih]
      simp only [CPU.apply]
      cases hst : e.store with
      | none => rfl
      | some st =>
          have hexec : Executes (reference init n) (EXU.bits _ 0) := ⟨_, 0, issues_issued _, rfl⟩
          have hfit := hexec.store_fits (p.supported n) he hst
          exact wordAt_write hfit (p.supported k).pcAligned
            (p.noSelfModification n k e st he hst)

/-- The instruction is the word at the program counter. -/
theorem inst_eq (n : ℕ) : (reference init n).inst = wordAt init (reference init n).pc :=
  p.wordAt_mem n n

/-- The code of the program. -/
def code : Code where
  Runs pc := ∃ n, (reference init n).pc = pc
  word := wordAt init
  aligned h := by
    obtain ⟨n, rfl⟩ := h
    exact (p.supported n).pcAligned
  routed h := by
    obtain ⟨n, rfl⟩ := h
    exact (p.supported n).pcRouted

/-- The reference runs through the program. -/
theorem runs (n : ℕ) : p.code.Runs (reference init n).pc := ⟨n, rfl⟩

end Program

/-! ## A program in a loop -/

/-- A program that stores a word, loads it back and starts over. -/
def storeLoop : Word → Word := fun a =>
  if a = 0x30000000 then 0x800000b7       -- lui x1, 0x80000
  else if a = 0x30000004 then 0x0010a023  -- sw x1, 0(x1)
  else if a = 0x30000008 then 0x0000a103  -- lw x2, 0(x1)
  else if a = 0x3000000c then 0xff9ff06f  -- jal x0, -8
  else 0x00000013

namespace Nemu

/-- The states of `storeLoop`. -/
structure CPU.Looping (s : CPU) : Prop where
  pc : s.pc = 0x30000000 ∨ s.pc = 0x30000004 ∨ s.pc = 0x30000008 ∨ s.pc = 0x3000000c
  base : s.pc ≠ 0x30000000 → s.gpr 1 = 0x80000000
  code : ∀ a : Word, wordAlign a ≠ 0x80000000 → a.toNat % 4 = 0 → wordAt s.mem a = storeLoop a

/-- What an instruction does that stays in the loop. -/
structure CPU.Loops (s : CPU) (e : Effect) : Prop where
  dnpc : e.dnpc = 0x30000004 ∨ e.dnpc = 0x30000008 ∨ e.dnpc = 0x3000000c
  base : (s.apply e).gpr 1 = 0x80000000
  store : ∀ st, e.store = some st → st = ⟨0x80000000, 4, 0x80000000⟩

namespace CPU.Looping

variable {s : CPU} {e : Effect}

/-- The effect of an instruction of the loop leads back to the loop. -/
theorem next (h : s.Looping) (he : s.Loops e) : (s.apply e).Looping where
  pc := .inr he.dnpc
  base _ := he.base
  code a hne ha := by
    rw [← h.code a hne ha]
    simp only [CPU.apply]
    cases hst : e.store with
    | none => rfl
    | some st =>
        rw [he.store st hst]
        refine Program.wordAt_write (by decide) ha fun heq => hne ?_
        rw [← heq]
        rfl

/-- The instruction is one of the loop. -/
theorem inst (h : s.Looping) : s.inst = storeLoop s.pc := by
  rcases h.pc with hpc | hpc | hpc | hpc <;>
    exact h.code _ (by rw [hpc]; decide) (by rw [hpc]; decide)

/-- The instructions of the loop load and store at `0x80000000`. -/
theorem access (h : s.Looping) {n : ℕ} (hn : s.accessLen = some n) :
    n = 4 ∧ s.dataAddr = 0x80000000 := by
  have hi := h.inst
  have hb := h.base
  unfold CPU.accessLen at hn
  rw [CPU.dataAddr, CPU.operands]
  rcases h.pc with hpc | hpc | hpc | hpc <;> rw [hpc] at hi hb <;> rw [hi] at hn ⊢
  · rw [show decode (storeLoop 0x30000000) = (.lui, .U) by decide] at hn
    exact absurd hn (by simp [Inst.len])
  · rw [show decode (storeLoop 0x30000004) = (.sw, .S) by decide] at hn ⊢
    refine ⟨(Option.some_inj.mp hn).symm, ?_⟩
    rw [show decodeOperand s (storeLoop 0x30000004) .S = ⟨0, 1, 0, s.gpr 1, s.gpr 1, 0⟩ from rfl]
    rw [hb (by decide)]
    rfl
  · rw [show decode (storeLoop 0x30000008) = (.lw, .I) by decide] at hn ⊢
    refine ⟨(Option.some_inj.mp hn).symm, ?_⟩
    rw [show decodeOperand s (storeLoop 0x30000008) .I = ⟨2, 1, 0, s.gpr 1, 0, 0⟩ from rfl]
    rw [hb (by decide)]
    rfl
  · rw [show decode (storeLoop 0x3000000c) = (.jal, .J) by decide] at hn
    exact absurd hn (by simp [Inst.len])

/-- The loop is supported. -/
theorem supported (h : s.Looping) : s.Supported InMemory := by
  have hi := h.inst
  refine ⟨?_, ?_, ?_, ?_, ?_, ?_, fun n hn => ?_, fun n hn => ?_⟩
  case refine_7 => rw [(h.access hn).1, (h.access hn).2]; rfl
  case refine_8 => rw [(h.access hn).2, InMemory]; decide
  all_goals
    rcases h.pc with hpc | hpc | hpc | hpc <;> rw [hpc] at hi <;>
      simp only [hi, hpc, IsRv32i, InMemory] <;>
      decide

/-- Its instructions have the effects of the loop. -/
theorem exec (h : s.Looping) : ∃ e, decodeExec s = some e ∧ s.Loops e := by
  have hi := h.inst
  have hb := h.base
  rcases h.pc with hpc | hpc | hpc | hpc <;> rw [hpc] at hi hb
  · have hd : decode (storeLoop 0x30000000) = (.lui, .U) := by decide
    refine ⟨setRd s ⟨1, 0, 0, 0, 0, 0x80000000⟩ 0x80000000, ?_, ⟨?_, ?_, ?_⟩⟩
    · rw [decodeExec, hi, hd]; rfl
    all_goals simp [setRd, CPU.apply, hpc]
  · have h1 : s.gpr 1#5 = 0x80000000#32 := hb (by decide)
    have hd : decode (storeLoop 0x30000004) = (.sw, .S) := by decide
    refine ⟨storeMem s ⟨0, 1, 0, s.gpr 1, s.gpr 1, 0⟩ 4, ?_, ⟨?_, ?_, ?_⟩⟩
    · rw [decodeExec, hi, hd]; rfl
    all_goals simp [storeMem, CPU.apply, hpc, h1]
  · have h1 : s.gpr 1#5 = 0x80000000#32 := hb (by decide)
    have hd : decode (storeLoop 0x30000008) = (.lw, .I) := by decide
    refine ⟨setRd s ⟨2, 1, 0, s.gpr 1, 0, 0⟩ (read s.mem (s.gpr 1 + 0) 4), ?_, ⟨?_, ?_, ?_⟩⟩
    · rw [decodeExec, hi, hd]; rfl
    all_goals simp [setRd, CPU.apply, hpc, h1]
  · have h1 : s.gpr 1#5 = 0x80000000#32 := hb (by decide)
    have hd : decode (storeLoop 0x3000000c) = (.jal, .J) := by decide
    refine ⟨{ dnpc := s.pc + 0xfffffff8, rd := some (0, s.pc + 4) }, ?_, ⟨?_, ?_, ?_⟩⟩
    · rw [decodeExec, hi, hd]; rfl
    all_goals simp [CPU.apply, hpc, h1]

end CPU.Looping

end Nemu

/-- The reference stays in the loop. -/
theorem storeLoop_looping (n : ℕ) : (reference (ofWords storeLoop) n).Looping := by
  induction n with
  | zero => exact ⟨.inl rfl, fun h => absurd rfl h, fun a _ ha => wordAt_ofWords storeLoop ha⟩
  | succ n ih =>
      obtain ⟨e, he, hloops⟩ := ih.exec
      rw [Program.reference_succ he]
      exact ih.next hloops

/-- The loop is a program for the core. -/
theorem storeLoop_program : Program (ofWords storeLoop) where
  supported n := (storeLoop_looping n).supported
  noSelfModification n k e st he hst := by
    obtain ⟨e', he', hloops⟩ := (storeLoop_looping n).exec
    rw [he, Option.some_inj] at he'
    subst he'
    rw [hloops.store st hst]
    rcases (storeLoop_looping k).pc with hpc | hpc | hpc | hpc <;> rw [hpc] <;> decide

end Bailuwan
