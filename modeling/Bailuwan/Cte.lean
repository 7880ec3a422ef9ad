/-
# Traps and contexts (`riscv/npc/trap.S`, `riscv/npc/cte.c`)

A trap enters `__am_asm_trap`, which pushes the registers and some CSRs as a `Context` below the
stack pointer, calls `__am_irq_handle` with its address, and goes on in the context whose address
that function returns.  The assembler code is executed on the reference model; the function is C
code and is executed in one step, after which the registers that it need not save and the stack
below it hold anything.  The trap leads into the context that was returned, whichever that is
(`leads_resume`), so a handler that returns what it was given is not noticed (`trap_transparent`).
-/
import Bailuwan.Assembly

open StateTransition

namespace Bailuwan

namespace Nemu

namespace Cte

open Asm

/-! ## Contexts -/

def ra : BitVec 5 := 1
def sp : BitVec 5 := 2
def t0 : BitVec 5 := 5
def t1 : BitVec 5 := 6
def t2 : BitVec 5 := 7
def a0 : BitVec 5 := 10
def a5 : BitVec 5 := 15

/-- `REGS`, for RV32E. -/
def REGS : List ℕ := [1, 3, 4, 5, 6, 7, 8, 9, 10, 11, 12, 13, 14, 15]

/-- The number of registers of RV32E. -/
def NR_REGS : ℕ := 16

/-- The size of a context: the registers, three CSRs and one word more. -/
def CONTEXT_SIZE : ℕ := (NR_REGS + 3 + 1) * 4

/-- The word `k` of a context. -/
def slot (c : Word) (k : ℕ) : Word := c + BitVec.ofNat 32 (4 * k)

/-- `offsetof(Context, mcause)`, in words. -/
def mcause : ℕ := NR_REGS

/-- The word of the context for `mstatus`. -/
def mstatus : ℕ := NR_REGS + 1

/-- The word of the context for `mepc`. -/
def mepc : ℕ := NR_REGS + 2

/-- The distance of two slots is the one of their indices. -/
theorem slot_sub (c : Word) {j k : ℕ} (hj : 4 * j < 2 ^ 32) (hk : 4 * k < 2 ^ 32) :
    (slot c j - slot c k).toNat = (2 ^ 32 + 4 * j - 4 * k) % 2 ^ 32 := by
  simp only [slot, BitVec.toNat_sub, BitVec.toNat_add, BitVec.toNat_ofNat]
  omega

/-- A store to another word of the context. -/
theorem wordAt_write_slot (m : Bytes) (c v : Word) {j k : ℕ} (hj : 4 * j < CONTEXT_SIZE)
    (hk : 4 * k < CONTEXT_SIZE) (hne : j ≠ k) :
    wordAt (write m (slot c k) 4 v) (slot c j) = wordAt m (slot c j) := by
  have hsize : CONTEXT_SIZE = 80 := rfl
  refine wordAt_congr fun x hx => write_of_notMem ?_
  have hsub := slot_sub c (j := j) (k := k) (by omega) (by omega)
  rw [mem_span] at hx ⊢
  rw [BitVec.toNat_sub] at hx hsub ⊢
  have := x.isLt
  have := (slot c j).isLt
  have := (slot c k).isLt
  omega

/-- The memory after some stores to a context. -/
def save (m : Bytes) (c : Word) (ws : List (ℕ × Word)) : Bytes :=
  ws.foldl (fun m w => write m (slot c w.1) 4 w.2) m

@[simp] theorem save_cons (m : Bytes) (c : Word) (w : ℕ × Word) (ws : List (ℕ × Word)) :
    save m c (w :: ws) = save (write m (slot c w.1) 4 w.2) c ws := rfl

theorem save_append (m : Bytes) (c : Word) (ws us : List (ℕ × Word)) :
    save m c (ws ++ us) = save (save m c ws) c us := List.foldl_append

/-- A word that is not saved. -/
theorem wordAt_save_other {m : Bytes} {c : Word} {ws : List (ℕ × Word)} {k : ℕ}
    (hk : 4 * k < CONTEXT_SIZE) (hws : ∀ w ∈ ws, 4 * w.1 < CONTEXT_SIZE ∧ w.1 ≠ k) :
    wordAt (save m c ws) (slot c k) = wordAt m (slot c k) := by
  induction ws generalizing m with
  | nil => rfl
  | cons w ws ih =>
      obtain ⟨hw, hne⟩ := hws w List.mem_cons_self
      rw [save_cons, ih fun u hu => hws u (List.mem_cons_of_mem w hu),
        wordAt_write_slot m c w.2 hk hw hne.symm]

/-- **Every word is where it was saved**, if no two are saved in one place. -/
theorem wordAt_save {m : Bytes} {c : Word} {ws : List (ℕ × Word)} (hnodup : (ws.map Prod.fst).Nodup)
    (hws : ∀ w ∈ ws, 4 * w.1 < CONTEXT_SIZE) {k : ℕ} {v : Word} (h : (k, v) ∈ ws) :
    wordAt (save m c ws) (slot c k) = v := by
  induction ws generalizing m with
  | nil => exact absurd h List.not_mem_nil
  | cons w ws ih =>
      rw [List.map_cons, List.nodup_cons] at hnodup
      obtain ⟨hnot, hnodup⟩ := hnodup
      rw [save_cons]
      rcases List.mem_cons.mp h with rfl | hmem
      · rw [wordAt_save_other (hws _ List.mem_cons_self), wordAt_write_self]
        intro u hu
        refine ⟨hws u (List.mem_cons_of_mem _ hu), fun heq => hnot ?_⟩
        exact heq ▸ List.mem_map_of_mem hu
      · exact ih hnodup (fun u hu => hws u (List.mem_cons_of_mem w hu)) hmem

/-- Only the context changes. -/
theorem save_frame {m : Bytes} {c a : Word} {ws : List (ℕ × Word)}
    (hws : ∀ w ∈ ws, 4 * w.1 < CONTEXT_SIZE) (ha : a ∉ span c CONTEXT_SIZE) :
    save m c ws a = m a := by
  induction ws generalizing m with
  | nil => rfl
  | cons w ws ih =>
      have hsize : CONTEXT_SIZE = 80 := rfl
      have hw := hws w List.mem_cons_self
      rw [save_cons, ih fun u hu => hws u (List.mem_cons_of_mem w hu)]
      refine write_of_notMem fun hmem => ha ?_
      rw [mem_span] at hmem ⊢
      rw [slot, BitVec.toNat_sub, BitVec.toNat_add, BitVec.toNat_ofNat] at hmem
      rw [BitVec.toNat_sub]
      have := a.isLt
      have := c.isLt
      omega

/-! ## `trap.S` -/

/-- `PUSH` -/
def PUSH (n : ℕ) : Asm := sw (BitVec.ofNat 5 n) (BitVec.ofNat 32 (4 * n)) sp

/-- `POP` -/
def POP (n : ℕ) : Asm := lw (BitVec.ofNat 5 n) (BitVec.ofNat 32 (4 * n)) sp

/-- The offset of a word of the context. -/
def offsetOf (k : ℕ) : Word := BitVec.ofNat 32 (4 * k)

/-- From the entry to the call, but for the first instruction. -/
def enter : List Asm := REGS.map PUSH ++ [
  csrr t0 CSR.mcause,
  csrr t1 CSR.mstatus,
  csrr t2 CSR.mepc,
  sw t0 (offsetOf mcause) sp,
  sw t1 (offsetOf mstatus) sp,
  sw t2 (offsetOf mepc) sp,
  mv a0 sp]

/-- From the call to the return, but for the last instruction. -/
def leave : List Asm := [
  mv sp a0,
  lw t1 (offsetOf mstatus) sp,
  lw t2 (offsetOf mepc) sp,
  csrw CSR.mstatus t1,
  csrw CSR.mepc t2] ++ REGS.map POP ++ [addi sp sp (BitVec.ofNat 32 CONTEXT_SIZE)]

/-- `__am_asm_trap`, where the function that it calls is `d` away from the call. -/
def trap (d : Word) : List Asm :=
  addi sp sp (-BitVec.ofNat 32 CONTEXT_SIZE) :: enter ++
    auipc ra (hi20 d) :: jalr ra (lo12 d) ra :: leave ++ [Asm.mret]

/-! ## `cte.c` -/

/-- The events that `__am_irq_handle` makes. -/
inductive Event
  | yield
  | error
  deriving DecidableEq, Repr

/-- `user_handler`: an event and the address of a context, to the address of a context. -/
abbrev Handler := Event → Word → Bytes → Word × Bytes

/-- `__am_irq_handle`; the context and the memory that it returns.  None where the assertion
fails. -/
def irqHandle (userHandler : Option Handler) (c : Word) (mem : Bytes) : Option (Word × Bytes) :=
  match userHandler with
  | none => some (c, mem)
  | some handler =>
      let r :=
        -- environment call from M-mode, with -1 in GPR1
        if read mem (slot c mcause) 4 = 8 + 0b11 ∧ read mem (slot c 15) 4 = -1 then
          handler .yield c (write mem (slot c mepc) 4 (read mem (slot c mepc) 4 + 4))
        else
          handler .error c mem
      if r.1 = 0 then none else some r

/-- `kcontext`; `kstack` is given by its end. -/
def kcontext (stackEnd entry arg : Word) (mem : Bytes) : Word × Bytes :=
  let c := stackEnd - BitVec.ofNat 32 CONTEXT_SIZE
  (c, save mem c [(mepc, entry), (mstatus, 0x1800), (10, arg)])

/-- `yield` -/
def yield : List Asm := [li a5 (-1), ecall]

/-! ## The machine -/

/-- The registers that a function saves. -/
def calleeSaved : List (BitVec 5) := [2, 3, 4, 8, 9]

/-- What the trap code is linked with. -/
structure Env where
  base : Word
  irq : Word
  userHandler : Option Handler
  /-- What the C code leaves in the other registers. -/
  clobber : CPU → BitVec 5 → Word
  /-- What it leaves on the stack. -/
  spill : CPU → Bytes → Bytes
  room : ℕ
  room_le : room + CONTEXT_SIZE ≤ 2 ^ 32
  spill_frame : ∀ s m a, a ∉ span (s.gpr sp - BitVec.ofNat 32 room) room → spill s m a = m a
  base_align : base.toNat % 8 = 0
  irq_align : irq.toNat % 2 = 0
  irq_outside : irq ∉ span base (4 * 45)

namespace Env

variable (env : Env)

/-- What a trap writes below the stack pointer, where the context is at `c`. -/
def stack (c : Word) : Set Word :=
  span c CONTEXT_SIZE ∪ span (c - BitVec.ofNat 32 env.room) env.room

/-- Where the trap code is. -/
def text : Set Word := span env.base (4 * 45)

/-- The trap code. -/
def code : List Asm := trap (env.irq - lineAt env.base 22)

/-- A function that is called in `s` returns `v` and leaves the memory `m`. -/
def returned (s : CPU) (v : Word) (m : Bytes) : CPU :=
  { s with
    pc := s.gpr ra &&& ~~~ 1
    gpr := fun r =>
      if r = 0 then 0
      else if r = a0 then v
      else if r ∈ calleeSaved then s.gpr r
      else env.clobber s r
    mem := env.spill s m }

/-- The call of `__am_irq_handle`. -/
def irqStep (s : CPU) : Option CPU :=
  (irqHandle env.userHandler (s.gpr a0) s.mem).map fun r => env.returned s r.1 r.2

/-- The next state. -/
def next (s : CPU) : Option CPU := if s.pc = env.irq then env.irqStep s else s.step

end Env

/-! ## The way into the handler -/

/-- `enter` runs from one line to the next. -/
theorem straight_enter : ∀ a ∈ enter, a.Straight := by
  have h : ∀ a ∈ enter, a.Continues ∧ a.inst ∉ jumps := by decide +kernel
  exact fun a ha => straight_of_notMem (h a ha).1 (h a ha).2

/-- `leave` runs from one line to the next. -/
theorem straight_leave : ∀ a ∈ leave, a.Straight := by
  have h : ∀ a ∈ leave, a.Continues ∧ a.inst ∉ jumps := by decide +kernel
  exact fun a ha => straight_of_notMem (h a ha).1 (h a ha).2

/-- The words of the context that is pushed. -/
def context (s : CPU) : List (ℕ × Word) :=
  REGS.map (fun n => (n, s.gpr (BitVec.ofNat 5 n))) ++
    [(mcause, s.csr CSR.mcause), (mstatus, s.csr CSR.mstatus), (mepc, s.csr CSR.mepc)]

/-- A stored register. -/
theorem exec_sw_slot {s : CPU} {c : Word} {r : BitVec 5} {k : ℕ} (h0 : s.gpr 0 = 0)
    (hsp : s.gpr sp = c) : (sw r (offsetOf k) sp).exec s =
      { s with pc := s.pc + 4, mem := write s.mem (slot c k) 4 (s.gpr r) } := by
  have hgpr : Function.update s.gpr 0 0 = s.gpr := by
    rw [← h0, Function.update_eq_self]
  rw [exec_sw, hsp, CPU.put, hgpr]
  rfl

/-- The pushes. -/
theorem execAll_push (ns : List ℕ) {s : CPU} {c : Word} (h0 : s.gpr 0 = 0) (hsp : s.gpr sp = c) :
    execAll (ns.map PUSH) s = { s with
      pc := lineAt s.pc ns.length
      mem := save s.mem c (ns.map fun n => (n, s.gpr (BitVec.ofNat 5 n))) } := by
  induction ns generalizing s with
  | nil =>
      have hpc : lineAt s.pc 0 = s.pc := BitVec.add_zero s.pc
      simp only [List.map_nil, execAll_nil, List.length_nil, hpc]
      rfl
  | cons n ns ih =>
      have hpush : (PUSH n).exec s = { s with
          pc := s.pc + 4, mem := write s.mem (slot c n) 4 (s.gpr (BitVec.ofNat 5 n)) } :=
        exec_sw_slot h0 hsp
      rw [List.map_cons, execAll_cons, hpush, ih (s := { s with
        pc := s.pc + 4, mem := write s.mem (slot c n) 4 (s.gpr (BitVec.ofNat 5 n)) }) h0 hsp]
      have hpc : lineAt (s.pc + 4) ns.length = lineAt s.pc (n :: ns).length :=
        lineAt_four_add s.pc ns.length
      simp only [hpc, List.map_cons, save_cons]

/-- A state in which the context is on the stack and the function is to be called with it. -/
structure Entered (s : CPU) (c : Word) (t : CPU) : Prop where
  a0 : t.gpr a0 = c
  gpr : ∀ r ∈ calleeSaved, r ≠ sp → t.gpr r = s.gpr r
  sp : t.gpr sp = c
  mem : t.mem = save s.mem c (context s)
  csr : t.csr = s.csr
  privLevel : t.privLevel = s.privLevel

/-- **The context is pushed.** -/
theorem entered_enter {s : CPU} {c : Word} (h0 : s.gpr 0 = 0) (hsp : s.gpr sp = c) :
    Entered s c (execAll enter s) := by
  rw [enter, execAll_append, execAll_push REGS h0 hsp]
  generalize hm : save s.mem c (REGS.map fun n => (n, s.gpr (BitVec.ofNat 5 n))) = m
  have hctx : save s.mem c (context s) = write (write (write m (slot c mcause) 4 (s.csr CSR.mcause))
      (slot c mstatus) 4 (s.csr CSR.mstatus)) (slot c mepc) 4 (s.csr CSR.mepc) := by
    rw [context, save_append, hm]
    rfl
  have hslot : ∀ k, c + offsetOf k = slot c k := fun _ => rfl
  have hsp' : s.gpr 2#5 = c := hsp
  have h0' : s.gpr 0#5 = 0 := h0
  constructor
  · simp [exec_csrr, CPU.gpr_assign, CPU.gpr_put, h0', hsp', mv, t0, t1, t2, a0, sp]
  · intro r hr hne
    simp only [calleeSaved, List.mem_cons, List.not_mem_nil, or_false] at hr
    rcases hr with rfl | rfl | rfl | rfl | rfl <;>
      simp [exec_csrr, CPU.gpr_assign, CPU.gpr_put, h0', mv, t0, t1, t2, a0, sp]
  · simp [exec_csrr, CPU.gpr_assign, CPU.gpr_put, h0', hsp', mv, t0, t1, t2, a0, sp]
  · simp [exec_csrr, CPU.gpr_assign, CPU.gpr_put, h0', hsp', mv, t0, t1, t2, a0, sp, hctx, hslot]
  · simp [exec_csrr, CPU.gpr_assign, CPU.gpr_put, h0', mv, t0, t1, t2, a0, sp]
  · simp only [execAll_cons, execAll_nil, mv, exec_addi, exec_sw]
    rfl

section Runs

variable {env : Env} {s t : CPU} {c : Word} {m : Bytes} {Q : CPU → Prop}

/-- The code of the environment runs as it is written. -/
theorem executes (env : Env) : Executes env.next env.base env.code := by
  intro s k hk hpc
  refine if_neg fun heq => env.irq_outside ?_
  rw [← heq, hpc, mem_span, lineAt, BitVec.add_comm, BitVec.add_sub_cancel, BitVec.toNat_ofNat]
  have hlen : env.code.length = 45 := rfl
  omega

/-- The trap code is not where something is stored. -/
theorem codeAt_write {addr v : Word} {len : ℕ} (h : CodeAt m env.base env.code)
    (hout : Disjoint (span addr len) env.text) :
    CodeAt (write m addr len v) env.base env.code :=
  h.congr fun _ ha => write_of_notMem (Set.disjoint_right.mp hout ha)

/-- A slot is in the context. -/
theorem span_slot {k : ℕ} (hk : 4 * k < CONTEXT_SIZE) : span (slot c k) 4 ⊆ span c CONTEXT_SIZE := by
  have hsize : CONTEXT_SIZE = 80 := rfl
  intro a ha
  rw [mem_span] at ha ⊢
  rw [slot, BitVec.toNat_sub, BitVec.toNat_add, BitVec.toNat_ofNat] at ha
  rw [BitVec.toNat_sub]
  have := a.isLt
  have := c.isLt
  omega

/-- What holds while the context is pushed. -/
structure Pushing (env : Env) (c : Word) (t : CPU) : Prop where
  code : CodeAt t.mem env.base env.code
  zero : t.gpr 0 = 0
  sp : t.gpr sp = c

/-- Every line of `enter` keeps what is pushed outside the code. -/
theorem Pushing.enter (hout : Disjoint (span c CONTEXT_SIZE) env.text)
    (h : Pushing env c t) {a : Asm} (ha : a ∈ enter) : Pushing env c (a.exec t) := by
  have hstore : ∀ (r : BitVec 5) (k : ℕ), 4 * k < CONTEXT_SIZE →
      Pushing env c ((sw r (offsetOf k) Cte.sp).exec t) := by
    intro r k hk
    rw [exec_sw_slot h.zero h.sp]
    exact ⟨codeAt_write h.code (hout.mono_left (span_slot hk)), h.zero, h.sp⟩
  have hassign : ∀ (r : BitVec 5) (v : Word), r ≠ Cte.sp → Pushing env c (t.assign r v) := by
    intro r v hr
    refine ⟨h.code, by rw [CPU.gpr_assign, if_pos rfl], ?_⟩
    rw [CPU.gpr_assign, if_neg (by decide), if_neg hr.symm, h.sp]
  rw [Cte.enter, List.mem_append, List.mem_map] at ha
  rcases ha with ⟨n, hn, rfl⟩ | ha
  · exact hstore _ n (by revert n; decide)
  · simp only [List.mem_cons, List.not_mem_nil, or_false] at ha
    rcases ha with rfl | rfl | rfl | rfl | rfl | rfl | rfl
    · rw [exec_csrr _ _ _ h.zero]
      exact hassign _ _ (by decide)
    · rw [exec_csrr _ _ _ h.zero]
      exact hassign _ _ (by decide)
    · rw [exec_csrr _ _ _ h.zero]
      exact hassign _ _ (by decide)
    · exact hstore _ _ (by decide)
    · exact hstore _ _ (by decide)
    · exact hstore _ _ (by decide)
    · exact hassign Cte.a0 _ (by decide)

/-- The function is called. -/
structure Called (env : Env) (s : CPU) (c : Word) (t : CPU) : Prop extends Entered s c t where
  pc : t.pc = env.irq
  ra : t.gpr ra = lineAt env.base 24
  zero : t.gpr 0 = 0
  code : CodeAt t.mem env.base env.code

/-- **The way into the handler.** -/
theorem leads_called (hcode : CodeAt s.mem env.base env.code) (hpc : s.pc = env.base)
    (hc : s.gpr sp = c + BitVec.ofNat 32 CONTEXT_SIZE)
    (hout : Disjoint (span c CONTEXT_SIZE) env.text) :
    Leads env.next s (Called env s c) := by
  have hstart : s.pc = lineAt env.base 0 := hpc.trans (BitVec.add_zero _).symm
  have hfirst : [addi sp sp (-BitVec.ofNat 32 CONTEXT_SIZE)] <+: env.code.drop 0 := ⟨_, rfl⟩
  refine CodeAt.block (fun t => t.mem = s.mem) (executes env) (fun t ht => ht ▸ hcode) hfirst ?_ ?_
    hstart rfl ?_
  · intro a ha
    rw [List.mem_singleton.mp ha]
    exact straight_of_notMem (by decide +kernel) (by decide)
  · intro a ha t ht
    rw [List.mem_singleton.mp ha]
    exact ht
  intro hpc1 _
  have hsp : s.gpr sp + -BitVec.ofNat 32 CONTEXT_SIZE = c := by
    rw [hc, BitVec.add_assoc, BitVec.add_right_neg, BitVec.add_zero]
  rw [execAll_cons, execAll_nil, exec_addi, hsp] at hpc1 ⊢
  generalize hs1 : s.assign sp c = s1 at hpc1 ⊢
  have hpush : Pushing env c s1 := by
    rw [← hs1]
    exact ⟨hcode, CPU.gpr_assign, CPU.gpr_assign⟩
  have henter : enter <+: env.code.drop 1 := ⟨_, rfl⟩
  refine CodeAt.block (Pushing env c) (executes env) (fun t ht => ht.code) henter straight_enter
    (fun a ha t ht => ht.enter hout ha) hpc1 hpush ?_
  intro hpc2 hpush2
  have hent := entered_enter hpush.zero hpush.sp
  generalize execAll enter s1 = s2 at hent hpc2 hpush2 ⊢
  refine CodeAt.call (k := 22) (d := env.irq - lineAt env.base 22) (executes env) hpush2.code hpc2
    rfl rfl (by decide) (Leads.done ?_)
  have hgpr : ∀ r, r ≠ 0 → r ≠ ra → ((s2.assign ra (s2.pc + hi20 (env.irq - lineAt env.base 22))).link
      ra ((s2.pc + (env.irq - lineAt env.base 22)) &&& ~~~ 1)).gpr r = s2.gpr r := by
    intro r hr hne
    rw [CPU.gpr_link, if_neg hr, if_neg hne, CPU.gpr_assign, if_neg hr, if_neg hne]
  have hctx : context s1 = context s := by
    rw [← hs1]
    rfl
  constructor
  · refine ⟨?_, fun r hr hne => ?_, ?_, hent.mem.trans ?_, hent.csr.trans ?_,
      hent.privLevel.trans ?_⟩
    · rw [hgpr _ (by decide) (by decide), hent.a0]
    · have hr' : r ≠ 0 ∧ r ≠ ra := by
        revert r
        decide
      rw [hgpr r hr'.1 hr'.2, hent.gpr r hr hne, ← hs1, CPU.gpr_assign, if_neg hr'.1, if_neg hne]
    · rw [hgpr _ (by decide) (by decide), hent.sp]
    · rw [hctx, ← hs1]
      rfl
    · rw [← hs1]
      rfl
    · rw [← hs1]
      rfl
  · rw [CPU.pc_link, hpc2]
    have htarget : lineAt env.base 22 + (env.irq - lineAt env.base 22) = env.irq := by
      rw [BitVec.add_comm, BitVec.sub_add_cancel]
    exact (congrArg (fun x => x &&& ~~~ 1) htarget).trans (and_not_one env.irq_align)
  · rw [CPU.gpr_link, if_neg (by decide), if_pos rfl, CPU.pc_assign, hpc2]
    exact (congrArg (fun x => x + 4#32) (lineAt_add_four env.base 22)).trans (lineAt_add_four _ 23)
  · exact CPU.gpr_link
  · exact hpush2.code

/-! ## The way out of the handler -/

/-- The state that goes on in the context at `c`. -/
def resume (s : CPU) (c : Word) : CPU where
  gpr := fun r =>
    if r = 0 then 0
    else if r = sp then c + BitVec.ofNat 32 CONTEXT_SIZE
    else if r.toNat ∈ REGS then wordAt s.mem (slot c r.toNat)
    else s.gpr r
  pc := wordAt s.mem (slot c mepc)
  csr := Function.update (Function.update s.csr CSR.mstatus (wordAt s.mem (slot c mstatus)))
    CSR.mepc (wordAt s.mem (slot c mepc))
  privLevel := s.privLevel
  mem := s.mem

/-- The pops. -/
theorem execAll_pop (ns : List ℕ) (hns : ∀ n ∈ ns, n < 32 ∧ n ≠ 2) (h0 : s.gpr 0 = 0)
    (hsp : s.gpr sp = c) : execAll (ns.map POP) s = { s with
      pc := lineAt s.pc ns.length
      gpr := fun r =>
        if r = 0 then 0 else if r.toNat ∈ ns then wordAt s.mem (slot c r.toNat) else s.gpr r } := by
  induction ns generalizing s with
  | nil =>
      have hpc : lineAt s.pc 0 = s.pc := BitVec.add_zero s.pc
      have hgpr : (fun r => if r = 0 then 0 else if r.toNat ∈ ([] : List ℕ) then
          wordAt s.mem (slot c r.toNat) else s.gpr r) = s.gpr := by
        funext r
        rw [if_neg List.not_mem_nil]
        split_ifs with h
        · rw [h, h0]
        · rfl
      rw [hgpr, List.length_nil, hpc]
      rfl
  | cons n ns ih =>
      obtain ⟨hlt, hne⟩ := hns n List.mem_cons_self
      have hsp2 : sp ≠ BitVec.ofNat 5 n := by
        intro h
        have htoNat := congrArg BitVec.toNat h
        rw [BitVec.toNat_ofNat, Nat.mod_eq_of_lt hlt] at htoNat
        exact hne htoNat.symm
      have hpop : (POP n).exec s = s.assign (BitVec.ofNat 5 n) (wordAt s.mem (slot c n)) := by
        rw [POP, exec_lw, hsp]
        rfl
      rw [List.map_cons, execAll_cons, hpop, ih (fun m hm => hns m (List.mem_cons_of_mem n hm))
        CPU.gpr_assign (by rw [CPU.gpr_assign, if_neg (by decide), if_neg hsp2, hsp])]
      have hpc : lineAt (s.pc + 4) ns.length = lineAt s.pc (n :: ns).length :=
        lineAt_four_add s.pc ns.length
      have hgpr : (fun r => if r = 0 then 0 else if r.toNat ∈ ns then wordAt s.mem (slot c r.toNat)
          else (s.assign (BitVec.ofNat 5 n) (wordAt s.mem (slot c n))).gpr r) = fun r =>
            if r = 0 then 0
            else if r.toNat ∈ n :: ns then wordAt s.mem (slot c r.toNat) else s.gpr r := by
        funext r
        have hr : r = BitVec.ofNat 5 n ↔ r.toNat = n := by
          rw [← BitVec.toNat_inj, BitVec.toNat_ofNat, Nat.mod_eq_of_lt hlt]
        simp only [CPU.gpr_assign, List.mem_cons, hr]
        by_cases hz : r = 0#5 <;> by_cases h : r.toNat = n <;> simp [hz, h]
      rw [CPU.mem_assign, CPU.pc_assign, hpc, hgpr]
      rfl

/-- Before the last instruction. -/
theorem execAll_leave (ha0 : s.gpr a0 = c) : (execAll leave s).gpr = (resume s c).gpr ∧
    (execAll leave s).csr = (resume s c).csr ∧ (execAll leave s).privLevel = s.privLevel ∧
      (execAll leave s).mem = s.mem := by
  rw [leave, execAll_append, execAll_append]
  generalize hu : execAll _ s = u
  have hgpr : ∀ r, u.gpr r = if r = 0#5 then 0 else if r = 7#5 then wordAt s.mem (slot c mepc)
      else if r = 6#5 then wordAt s.mem (slot c mstatus) else if r = 2#5 then c else s.gpr r := by
    intro r
    subst hu ha0
    by_cases hr : r = 0#5 <;>
      simp [CPU.gpr_assign, CPU.gpr_setCsr, mv, t1, t2, sp, hr, slot, offsetOf]
  have hcsr : u.csr = (resume s c).csr := by
    subst hu ha0
    simp [CPU.setCsr, CPU.gpr_assign, mv, t1, t2, sp, slot, offsetOf, resume]
  have hmem : u.mem = s.mem := by
    subst hu
    rfl
  have hpriv : u.privLevel = s.privLevel := by
    subst hu
    rfl
  have hsp : u.gpr sp = c := hgpr sp
  rw [execAll_pop REGS (by decide) (hgpr 0) hsp]
  refine ⟨?_, hcsr, hpriv, hmem⟩
  funext r
  have hother : r.toNat ∉ REGS → r ≠ 0#5 → r ≠ sp → u.gpr r = s.gpr r := by
    intro hr h0 hsp
    have h7 : r ≠ 7#5 := fun h => hr (h ▸ by decide)
    have h6 : r ≠ 6#5 := fun h => hr (h ▸ by decide)
    exact (hgpr r).trans (by rw [if_neg h0, if_neg h7, if_neg h6]; exact if_neg hsp)
  simp only [execAll_cons, execAll_nil, exec_addi, CPU.gpr_assign, resume, hmem]
  rcases eq_or_ne r 0 with rfl | h0
  · rfl
  rw [if_neg h0, if_neg h0]
  rcases eq_or_ne r sp with rfl | h2
  · simp [show sp ≠ 0#5 by decide, hsp, show sp.toNat ∉ REGS by decide]
  rw [if_neg h2, if_neg h2, if_neg h0]
  by_cases hr : r.toNat ∈ REGS
  · rw [if_pos hr, if_pos hr]
  · rw [if_neg hr, if_neg hr, hother hr h0 h2]

/-- **The way out of the handler**: the machine goes on in the context whose address is in `a0`. -/
theorem leads_resume (hcode : CodeAt s.mem env.base env.code) (hpc : s.pc = lineAt env.base 24)
    (ha0 : s.gpr a0 = c) : Leads env.next s (· = resume s c) := by
  have hmem : ∀ a ∈ leave, ∀ t : CPU, t.mem = s.mem → (a.exec t).mem = s.mem := by
    intro a ha t ht
    simp only [leave, List.mem_append, List.mem_cons, List.not_mem_nil, or_false, List.mem_map] at ha
    rcases ha with ((rfl | rfl | rfl | rfl | rfl) | ⟨n, -, rfl⟩) | rfl <;> exact ht
  have hleave : leave <+: env.code.drop 24 := ⟨_, rfl⟩
  refine CodeAt.block (fun t => t.mem = s.mem) (executes env) (fun t ht => ht ▸ hcode) hleave
    straight_leave hmem hpc rfl ?_
  intro hpc1 _
  obtain ⟨hgpr, hcsr, hpriv, hmem1⟩ := execAll_leave ha0
  generalize execAll leave s = s1 at hpc1 hgpr hcsr hpriv hmem1 ⊢
  have hret : env.code[44]? = some Asm.mret := rfl
  have hnext : env.next s1 = s1.step := executes env s1 44 (show 44 < 45 by decide) hpc1
  refine Leads.step (hnext.trans (step_of_word (a := Asm.mret) ?_ (by decide +kernel)))
    (Leads.done ?_)
  · rw [CPU.inst, hpc1, hmem1]
    exact hcode 44 _ hret
  · have hepc : (resume s c).csr CSR.mepc = (resume s c).pc := by
      simp only [resume, Function.update_self]
    have hzero : Function.update (resume s c).gpr 0 0 = (resume s c).gpr :=
      Function.update_eq_self 0 (resume s c).gpr
    rw [exec_mret, CPU.goto, hgpr, hcsr, hmem1, hpriv, hepc, hzero]
    rfl

/-! ## An environment call -/

/-- The machine after the handler, in which the context at `c'` is to go on. -/
structure Handled (env : Env) (s : CPU) (c : Word) (m : Bytes) (u : CPU) : Prop where
  csr : u.csr = s.csr
  privLevel : u.privLevel = s.privLevel
  mem : ∀ a, a ∉ span (c - BitVec.ofNat 32 env.room) env.room → u.mem a = m a

/-- **A trap** leads into the context that the handler returns. -/
theorem leads_trap (hcode : CodeAt s.mem env.base env.code) (hpc : s.pc = env.base)
    (hc : s.gpr sp = c + BitVec.ofNat 32 CONTEXT_SIZE) (hout : Disjoint (env.stack c) env.text)
    {c' : Word} (hirq : irqHandle env.userHandler c (save s.mem c (context s)) = some (c', m))
    (hkeep : CodeAt m env.base env.code) :
    Leads env.next s fun t => ∃ u, Handled env s c m u ∧ t = resume u c' := by
  have hout' := Set.disjoint_union_left.mp hout
  refine (leads_called hcode hpc hc hout'.1).bind ?_
  intro t ht
  have hstep : env.next t = some (env.returned t c' m) := by
    rw [Env.next, if_pos ht.pc, Env.irqStep, ht.a0, ht.mem, hirq, Option.map_some]
  have hmem : ∀ a, a ∉ span (c - BitVec.ofNat 32 env.room) env.room →
      (env.returned t c' m).mem a = m a := by
    intro a ha
    exact env.spill_frame t m a (by rwa [ht.sp])
  have hret : (env.returned t c' m).pc = lineAt env.base 24 := by
    have hbase := env.base_align
    rw [Env.returned, ht.ra]
    refine and_not_one ?_
    rw [lineAt, BitVec.toNat_add, BitVec.toNat_ofNat]
    omega
  refine Leads.step hstep ((leads_resume (c := c') ?_ hret rfl).mono ?_)
  · exact hkeep.congr fun a ha => hmem a fun h => Set.disjoint_left.mp hout'.2 h ha
  · rintro _ rfl
    exact ⟨env.returned t c' m, ⟨ht.csr, ht.privLevel, hmem⟩, rfl⟩

end Runs

/-! ## Threads -/

/-- What of a thread is kept while another one runs. -/
structure Thread where
  gpr : BitVec 5 → Word
  pc : Word
  status : Word

/-- The thread that runs. -/
def running (s : CPU) : Thread := ⟨s.gpr, s.pc, s.csr CSR.mstatus⟩

/-- The context at `c` is that of the thread. -/
structure Saved (m : Bytes) (c : Word) (x : Thread) : Prop where
  gpr : ∀ n ∈ REGS, wordAt m (slot c n) = x.gpr (BitVec.ofNat 5 n)
  sp : x.gpr sp = c + BitVec.ofNat 32 CONTEXT_SIZE
  status : wordAt m (slot c mstatus) = x.status
  pc : wordAt m (slot c mepc) = x.pc

/-- The thread runs. -/
structure Runs (x : Thread) (s : CPU) : Prop where
  gpr : ∀ r, r ≠ 0 → r.toNat < NR_REGS → s.gpr r = x.gpr r
  pc : s.pc = x.pc
  status : s.csr CSR.mstatus = x.status

/-- What is saved in a context runs after `resume`. -/
theorem Saved.resume {s : CPU} {c : Word} {x : Thread} (h : Saved s.mem c x) :
    Runs x (resume s c) := by
  refine ⟨?_, h.pc, ?_⟩
  · intro r h0 hr
    simp only [Cte.resume, if_neg h0]
    split_ifs with hsp hregs
    · rw [hsp, h.sp]
    · rw [h.gpr _ hregs, BitVec.ofNat_toNat, BitVec.setWidth_eq]
    · exfalso
      revert r
      decide
  · simp only [Cte.resume]
    rw [Function.update_of_ne (by decide), Function.update_self, h.status]

/-- A context that is not written keeps what is saved in it. -/
theorem Saved.congr {m m' : Bytes} {c : Word} {x : Thread} (h : Saved m c x)
    (heq : ∀ a ∈ span c CONTEXT_SIZE, m' a = m a) : Saved m' c x := by
  have hslot : ∀ k, 4 * k < CONTEXT_SIZE → wordAt m' (slot c k) = wordAt m (slot c k) :=
    fun k hk => wordAt_congr fun a ha => heq a (span_slot hk ha)
  refine ⟨fun n hn => ?_, h.sp, ?_, ?_⟩
  · rw [hslot n (by revert n; decide), h.gpr n hn]
  · rw [hslot mstatus (by decide), h.status]
  · rw [hslot mepc (by decide), h.pc]

/-! ### What the handler is given -/

section Given

variable {s : CPU} {m : Bytes} {c : Word} {handler : Handler}

/-- The words of a context are in the context. -/
theorem context_lt : ∀ w ∈ context s, 4 * w.1 < CONTEXT_SIZE := by
  intro w hw
  have hkey : w.1 ∈ REGS ++ [mcause, mstatus, mepc] := List.mem_map_of_mem (f := Prod.fst) hw
  revert hkey
  generalize w.1 = k
  revert k
  decide

/-- Every word of a context can be read back. -/
theorem wordAt_context {k : ℕ} {v : Word} (h : (k, v) ∈ context s) :
    wordAt (save m c (context s)) (slot c k) = v := by
  have hnodup : ((context s).map Prod.fst).Nodup :=
    show (REGS ++ [mcause, mstatus, mepc]).Nodup by decide
  exact wordAt_save hnodup context_lt h

theorem mem_context_gpr {n : ℕ} (hn : n ∈ REGS) : (n, s.gpr (BitVec.ofNat 5 n)) ∈ context s :=
  List.mem_append_left _ (List.mem_map.mpr ⟨n, hn, rfl⟩)

theorem mem_context_csr : (mcause, s.csr CSR.mcause) ∈ context s ∧
    (mstatus, s.csr CSR.mstatus) ∈ context s ∧ (mepc, s.csr CSR.mepc) ∈ context s := by
  simp [context]

/-- The context that is pushed is that of the thread, which goes on at `mepc`. -/
theorem saved_context (hc : s.gpr sp = c + BitVec.ofNat 32 CONTEXT_SIZE) :
    Saved (save m c (context s)) c ⟨s.gpr, s.csr CSR.mepc, s.csr CSR.mstatus⟩ where
  gpr := fun _ hn => wordAt_context (mem_context_gpr hn)
  sp := hc
  status := wordAt_context mem_context_csr.2.1
  pc := wordAt_context mem_context_csr.2.2

/-- After `c->mepc += 4` it is that of the thread behind the call. -/
theorem Saved.write_mepc {x : Thread} (h : Saved m c x) (pc : Word) :
    Saved (write m (slot c mepc) 4 pc) c { x with pc := pc } := by
  have hne : ∀ n ∈ REGS, 4 * n < CONTEXT_SIZE ∧ n ≠ mepc := by decide
  refine ⟨fun n hn => ?_, h.sp, ?_, wordAt_write_self ..⟩
  · rw [wordAt_write_slot m c pc (hne n hn).1 (by decide) (hne n hn).2, h.gpr n hn]
  · rw [wordAt_write_slot m c pc (by decide) (by decide) (by decide), h.status]

/-- The event and the memory that the handler is called with. -/
def given (s : CPU) (c : Word) (m : Bytes) : Event × Bytes :=
  if s.gpr a5 = -1 then
    (.yield, write (save m c (context s)) (slot c mepc) 4 (s.csr CSR.mepc + 4))
  else (.error, save m c (context s))

/-- **The handler is called** with the event that the registers of the thread tell. -/
theorem irqHandle_given (hcause : s.csr CSR.mcause = 8 + 0b11) :
    irqHandle (some handler) c (save m c (context s)) =
      if (handler (given s c m).1 c (given s c m).2).1 = 0 then none
      else some (handler (given s c m).1 c (given s c m).2) := by
  have hread : read (save m c (context s)) (slot c mcause) 4 = 8 + 0b11 := by
    rw [read_four, wordAt_context mem_context_csr.1, hcause]
  have ha5 : read (save m c (context s)) (slot c 15) 4 = s.gpr a5 :=
    wordAt_context (mem_context_gpr (n := 15) (by decide))
  have hepc : read (save m c (context s)) (slot c mepc) 4 = s.csr CSR.mepc :=
    wordAt_context mem_context_csr.2.2
  simp only [irqHandle, given, hread, ha5, hepc, true_and]
  split_ifs <;> rfl

/-- The context that the handler is given has the registers of the thread in it. -/
theorem saved_given (hc : s.gpr sp = c + BitVec.ofNat 32 CONTEXT_SIZE) :
    Saved (given s c m).2 c ⟨s.gpr, if s.gpr a5 = -1 then s.csr CSR.mepc + 4 else s.csr CSR.mepc,
      s.csr CSR.mstatus⟩ := by
  rw [given]
  split_ifs
  · exact (saved_context hc).write_mepc _
  · exact saved_context hc

/-- Nothing else is written. -/
theorem given_frame {a : Word} (ha : a ∉ span c CONTEXT_SIZE) : (given s c m).2 a = m a := by
  have hsave : save m c (context s) a = m a := save_frame context_lt ha
  rw [given]
  split_ifs
  · exact (write_of_notMem fun h => ha (span_slot (k := mepc) (by decide) h)).trans hsave
  · exact hsave

end Given

/-! ### The whole call -/

/-- The machine is about to make an environment call, with room for a context at `c`. -/
structure Calls (env : Env) (s : CPU) (c : Word) : Prop where
  inst : s.inst = ecall.word
  pc : s.pc ≠ env.irq
  zero : s.gpr 0 = 0
  sp : s.gpr sp = c + BitVec.ofNat 32 CONTEXT_SIZE
  vec : s.csr CSR.mtvec = env.base
  privLevel : s.privLevel = 0b11
  code : CodeAt s.mem env.base env.code
  out : Disjoint (env.stack c) env.text

section Calls

variable {env : Env} {s : CPU} {m : Bytes} {c c' : Word} {handler : Handler}

/-- A trap keeps the registers. -/
theorem gpr_trap (h0 : s.gpr 0 = 0) : s.trap.gpr = s.gpr := by
  have hgpr : Function.update s.gpr 0 0 = s.gpr := by
    rw [← h0, Function.update_eq_self]
  exact hgpr

/-- A trap puts the program counter and the cause into the control registers. -/
theorem csr_trap : s.trap.csr CSR.mepc = s.pc ∧ s.trap.csr CSR.mstatus = s.csr CSR.mstatus ∧
    s.trap.csr CSR.mtvec = s.csr CSR.mtvec ∧
    (s.privLevel = 0b11 → s.trap.csr CSR.mcause = 8 + 0b11) := by
  refine ⟨rfl, rfl, rfl, fun h => ?_⟩
  have hcause : s.trap.csr CSR.mcause = s.privLevel.setWidth 32 + 8 := rfl
  rw [hcause, h]
  rfl

/-- The registers that a trap and the return from it write. -/
def trapCSRs : List (BitVec 12) := [CSR.mstatus, CSR.mepc, CSR.mtval, CSR.mcause]

/-- The others are as they were when another context goes on. -/
theorem csr_resume_trap {u : CPU} {a : BitVec 12} (h : u.csr = s.trap.csr) (ha : a ∉ trapCSRs) :
    (resume u c).csr a = s.csr a := by
  simp only [trapCSRs, List.mem_cons, List.not_mem_nil, or_false, not_or] at ha
  obtain ⟨hstatus, hepc, htval, hcause⟩ := ha
  simp [resume, h, CPU.trap, raiseIntr, hstatus, hepc, htval, hcause]

/-- **An environment call** leads into the context that `__am_irq_handle` returns. -/
theorem Calls.leads (h : Calls env s c)
    (hirq : irqHandle env.userHandler c (save s.mem c (context s.trap)) = some (c', m))
    (hkeep : ∀ a ∈ env.text, m a = s.mem a) :
    Leads env.next s fun t => ∃ u, Handled env s.trap c m u ∧ t = resume u c' := by
  have hstep : env.next s = some s.trap := by
    rw [Env.next, if_neg h.pc, step_of_word h.inst (by decide +kernel), exec_ecall]
  have hsp : s.trap.gpr Cte.sp = c + BitVec.ofNat 32 CONTEXT_SIZE := by
    rw [gpr_trap h.zero, h.sp]
  exact Leads.step hstep (leads_trap (s := s.trap) h.code h.vec hsp h.out hirq (h.code.congr hkeep))

/-- The thread goes on behind the call if it was to yield and there is a handler to be told. -/
def after (env : Env) (s : CPU) : Word :=
  if env.userHandler.isSome = true ∧ s.gpr a5 = -1 then s.pc + 4 else s.pc

/-- Handlers that give back the context they are given and change nothing but `own`. -/
structure GivesBack (env : Env) (own : Set Word) (c : Word) : Prop where
  returns : ∀ handler ∈ env.userHandler, ∀ e m, (handler e c m).1 = c
  frame : ∀ handler ∈ env.userHandler, ∀ e m, ∀ a ∉ own, (handler e c m).2 a = m a
  context : Disjoint own (span c CONTEXT_SIZE)
  text : Disjoint own env.text

/-- What the handler is told at a call, and the memory it is called with. -/
def told (s : CPU) (c : Word) : Event × Bytes := given s.trap c s.mem

/-- The thread whose context the handler is told. -/
theorem Calls.saved_told (h : Calls env s c) : Saved (told s c).2 c
    ⟨s.gpr, if s.gpr a5 = -1 then s.pc + 4 else s.pc, s.csr CSR.mstatus⟩ := by
  have hsp : s.trap.gpr Cte.sp = c + BitVec.ofNat 32 CONTEXT_SIZE := by
    rw [gpr_trap h.zero, h.sp]
  have hsaved := saved_given (m := s.mem) hsp
  rw [gpr_trap h.zero] at hsaved
  exact hsaved

/-- The context that is given back is the one of the thread behind the call. -/
theorem Calls.given_back {own : Set Word} (h : Calls env s c) (hback : GivesBack env own c)
    (hc : c ≠ 0) : ∃ m, irqHandle env.userHandler c (save s.mem c (context s.trap)) = some (c, m) ∧
      Saved m c ⟨s.gpr, after env s, s.csr CSR.mstatus⟩ ∧
        ∀ a ∉ span c CONTEXT_SIZE ∪ own, m a = s.mem a := by
  cases hhandler : env.userHandler with
  | none =>
      have hsp : s.trap.gpr Cte.sp = c + BitVec.ofNat 32 CONTEXT_SIZE := by
        rw [gpr_trap h.zero, h.sp]
      have hsaved := saved_context (m := s.mem) hsp
      rw [gpr_trap h.zero] at hsaved
      refine ⟨_, rfl, ?_, fun a ha => save_frame context_lt fun hin => ha (.inl hin)⟩
      rw [after, hhandler, if_neg (by simp)]
      exact hsaved
  | some handler =>
      have hmem : handler ∈ env.userHandler := hhandler
      have hret := hback.returns handler hmem (told s c).1 (told s c).2
      have hkeep := hback.frame handler hmem (told s c).1 (told s c).2
      have hsaved := h.saved_told.congr fun a ha =>
        hkeep a fun hown => Set.disjoint_left.mp hback.context hown ha
      refine ⟨(handler (told s c).1 c (told s c).2).2, ?_, ?_, fun a ha => ?_⟩
      · rw [irqHandle_given (csr_trap.2.2.2 h.privLevel), ← told, if_neg (by rw [hret]; exact hc)]
        exact congrArg some (Prod.ext hret rfl)
      · rw [after, hhandler]
        simpa using hsaved
      · rw [hkeep a fun hown => ha (.inr hown)]
        exact given_frame fun hin => ha (.inl hin)

/-- What the C code leaves on the stack is not in the context. -/
theorem notMem_room {a : Word} (ha : a ∈ span c CONTEXT_SIZE) :
    a ∉ span (c - BitVec.ofNat 32 env.room) env.room := by
  intro hroom
  have hsize : CONTEXT_SIZE = 80 := rfl
  have hle := env.room_le
  rw [mem_span, BitVec.toNat_sub] at ha hroom
  rw [BitVec.toNat_sub, BitVec.toNat_ofNat] at hroom
  have := a.isLt
  have := c.isLt
  omega

/-- **A call that is not noticed**: a handler that gives back the context it was given has the thread
go on as if nothing had happened, but for the words below its stack pointer. -/
theorem trap_transparent {own : Set Word} (h : Calls env s c) (hback : GivesBack env own c)
    (hc : c ≠ 0) : Leads env.next s fun t =>
      Runs ⟨s.gpr, after env s, s.csr CSR.mstatus⟩ t ∧ t.privLevel = s.privLevel ∧
        t.csr CSR.mtvec = s.csr CSR.mtvec ∧ ∀ a ∉ env.stack c ∪ own, t.mem a = s.mem a := by
  obtain ⟨m, hirq, hsaved, hmem⟩ := h.given_back hback hc
  have hout := Set.disjoint_union_left.mp h.out
  have htext : ∀ a ∈ env.text, m a = s.mem a := by
    intro a ha
    refine hmem a ?_
    rintro (hin | hown)
    · exact Set.disjoint_left.mp hout.1 hin ha
    · exact Set.disjoint_left.mp hback.text hown ha
  refine (h.leads hirq htext).mono ?_
  rintro _ ⟨u, hu, rfl⟩
  have hctx : Saved u.mem c ⟨s.gpr, after env s, s.csr CSR.mstatus⟩ :=
    hsaved.congr fun a ha => hu.mem a (notMem_room ha)
  refine ⟨hctx.resume, hu.privLevel, ?_, fun a ha => ?_⟩
  · have hvec : (resume u c).csr CSR.mtvec = u.csr CSR.mtvec := rfl
    rw [hvec, hu.csr, csr_trap.2.2.1]
  · have hnot : a ∉ span c CONTEXT_SIZE ∪ own := fun h => ha (h.imp_left .inl)
    exact (hu.mem a fun h => ha (.inl (.inr h))).trans (hmem a hnot)

end Calls

/-! ### A call that is not noticed -/

/-- A handler that returns the context, in code that overwrites every register it may and uses a word
of its stack. -/
def spilling : Env where
  base := 0x80000000
  irq := 0x80001000
  userHandler := some fun _ c m => (c, m)
  clobber := fun _ _ => 0xdeadbeef
  spill := fun s m => write m (s.gpr sp - BitVec.ofNat 32 16) 4 0xdeadbeef
  room := 16
  room_le := by decide
  spill_frame := by
    intro s m a ha
    refine write_of_notMem fun h => ha ?_
    rw [mem_span] at h ⊢
    omega
  base_align := by decide
  irq_align := by decide
  irq_outside := by
    rw [mem_span]
    decide

/-- The trap code and `yield`. -/
def program : Bytes := fun a =>
  if (a - spilling.base).toNat < 4 * 45 then image spilling.base spilling.code a
  else image 0x80003000 yield a

/-- A thread at its call. -/
def calling (m : Bytes) : CPU :=
  { restart 0x80003004 m with
    gpr := Function.update (Function.update (fun _ => 0) sp 0x80010000) a5 (-1)
    csr := Function.update (restart 0x80003004 m).csr CSR.mtvec spilling.base }

/-- The program has the code of the environment at its base. -/
theorem code_program : CodeAt program spilling.base spilling.code :=
  (codeAt_image spilling.base spilling.code (by decide)).congr fun _ ha => if_pos ha

/-- The program has the call of a thread at `0x80003000`. -/
theorem yield_program : CodeAt program 0x80003000 yield := by
  have hout : Disjoint (span 0x80003000 (4 * 2)) spilling.text :=
    disjoint_span (by decide) (by decide)
  exact (codeAt_image 0x80003000 yield (by decide)).congr fun _ ha =>
    if_neg (Set.disjoint_left.mp hout ha)

/-- The thread goes on behind its call. -/
theorem trap_transparent_spilling : Leads spilling.next (calling program) fun t =>
    Runs ⟨(calling program).gpr, after spilling (calling program), 0x1800⟩ t ∧
      t.privLevel = 0b11 ∧ t.csr CSR.mtvec = spilling.base ∧
        ∀ a ∉ spilling.stack (0x80010000 - 80) ∪ ∅, t.mem a = program a := by
  refine @trap_transparent spilling (calling program) (0x80010000 - 80) ∅
    ⟨by decide +kernel, by decide, by decide, by decide, rfl, rfl, code_program, ?_⟩
    ⟨?_, ?_, Set.empty_disjoint _, Set.empty_disjoint _⟩ (by decide)
  · exact Set.disjoint_union_left.mpr ⟨disjoint_span (by decide) (by decide),
      disjoint_span (by decide) (by decide)⟩
  · intro handler h e m
    obtain rfl := Option.some.inj h
    rfl
  · intro handler h e m a _
    obtain rfl := Option.some.inj h
    rfl

end Cte

end Nemu

end Bailuwan
