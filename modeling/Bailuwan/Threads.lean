/-
# Threads (`kcontext`, `yield` and the scheduler of a program)

A program that schedules threads is a handler that keeps a table of their contexts, puts the one it
is given where it belongs and returns another one (`Scheduler`).  On the abstract level every thread
has its own registers (`OS`), which it keeps while another one runs (`Step.saved_eq`): a step is an
instruction of the thread that runs, or a call of `yield`, after which a thread that the scheduler
can choose goes on with the registers it had when it called.  The machine, which has one set of
registers and contexts on the stacks of the threads, follows every run of threads that leave the
kernel and the contexts of the others alone, write no CSR and make no other environment call
(`threads_run`).
-/
import Bailuwan.Cte

open StateTransition

namespace Bailuwan

namespace Nemu

namespace Cte

open Asm

/-! ## Schedulers -/

/-- A handler with a table of contexts in its data: `table m i cp` where the thread `i` runs and the
context of thread `j` is at `cp j`. -/
structure Scheduler (ι : Type) [DecidableEq ι] where
  handler : Handler
  data : Set Word
  table : Bytes → ι → (ι → Word) → Prop
  table_congr : ∀ {m m' : Bytes} {i : ι} {cp : ι → Word}, (∀ a ∈ data, m' a = m a) →
    table m i cp → table m' i cp
  schedules : ∀ {m : Bytes} {i : ι} {cp : ι → Word} (c : Word), table m i cp →
    ∃ j m', handler .yield c m = (Function.update cp i c j, m') ∧
      table m' j (Function.update cp i c) ∧ ∀ a ∉ data, m' a = m a

/-- What the scheduler can choose: thread `j` goes on after thread `i`. -/
def Scheduler.Picks {ι : Type} [DecidableEq ι] (S : Scheduler ι) (i j : ι) : Prop :=
  ∃ m c cp m', S.table m i cp ∧ S.handler .yield c m = (Function.update cp i c j, m') ∧
    S.table m' j (Function.update cp i c)

/-- The trap code with a scheduler. -/
structure Kernel (ι : Type) [DecidableEq ι] extends Env where
  sched : Scheduler ι
  installed : userHandler = some sched.handler
  data_text : Disjoint sched.data toEnv.text

/-! ## The abstract level -/

/-- Threads with registers of their own; one of them runs. -/
structure OS (ι : Type) where
  cpu : CPU
  cur : ι
  saved : ι → Thread

variable {ι : Type} [DecidableEq ι]

/-- Where the context of a thread is that does not run. -/
def contextAt (x : Thread) : Word := x.gpr sp - BitVec.ofNat 32 CONTEXT_SIZE

/-- Another thread runs, one that the scheduler can choose. -/
structure Switched (k : Kernel ι) (o o' : OS ι) : Prop where
  picked : k.sched.Picks o.cur o'.cur
  saved : o'.saved = Function.update o.saved o.cur
    ⟨o.cpu.gpr, o.cpu.pc + 4, o.cpu.csr CSR.mstatus⟩
  runs : Runs (o'.saved o'.cur) o'.cpu
  zero : o'.cpu.gpr 0 = 0
  csr : ∀ a ∉ trapCSRs, o'.cpu.csr a = o.cpu.csr a
  privLevel : o'.cpu.privLevel = o.cpu.privLevel
  mem : ∀ a ∉ k.stack (contextAt (running o.cpu)) ∪ k.sched.data, o'.cpu.mem a = o.cpu.mem a

/-- A step of the threads. -/
inductive Step (k : Kernel ι) : OS ι → OS ι → Prop
  | run {o : OS ι} {t : CPU} (hcall : o.cpu.inst ≠ ecall.word) (h : o.cpu.step = some t) :
      Step k o { o with cpu := t }
  | yield {o o' : OS ι} (hcall : o.cpu.inst = ecall.word) (h : Switched k o o') : Step k o o'

/-- What the thread that runs may write: nothing of the kernel and no context of another thread. -/
def OS.Own (k : Kernel ι) (o : OS ι) (as : Set Word) : Prop :=
  Disjoint as k.text ∧ Disjoint as k.sched.data ∧
    ∀ i, i ≠ o.cur → Disjoint as (span (contextAt (o.saved i)) CONTEXT_SIZE)

/-- The next instruction of the thread that runs is a call of `yield` with room for a context, or
one that goes on, writes what it may and no CSR.  There is no other environment call. -/
inductive OS.Safe (k : Kernel ι) (o : OS ι) : Prop
  | yield (hpc : o.cpu.pc ≠ k.irq) (hcall : o.cpu.inst = ecall.word) (ha5 : o.cpu.gpr a5 = -1)
      (hc : contextAt (running o.cpu) ≠ 0) (hown : o.Own k (k.stack (contextAt (running o.cpu))))
  | run (hpc : o.cpu.pc ≠ k.irq) (hcall : o.cpu.inst ≠ ecall.word) {e : Effect}
      (he : decodeExec o.cpu = some e) (hstop : e.stop = none) (hcsr : e.csr = [])
      (hown : ∀ st ∈ e.store, o.Own k (span st.addr st.len))

/-! ## The machine -/

/-- The machine in which thread `cur` runs and the others are in their contexts. -/
structure Related (k : Kernel ι) (o : OS ι) (s : CPU) (cp : ι → Word) : Prop where
  cpu : o.cpu = s
  code : CodeAt s.mem k.base k.code
  vec : s.csr CSR.mtvec = k.base
  privLevel : s.privLevel = 0b11
  zero : s.gpr 0 = 0
  table : k.sched.table s.mem o.cur cp
  saved : ∀ i, i ≠ o.cur → Saved s.mem (cp i) (o.saved i)
  nonnull : ∀ i, i ≠ o.cur → cp i ≠ 0
  out : ∀ i, i ≠ o.cur → Disjoint (k.sched.data ∪ k.text) (span (cp i) CONTEXT_SIZE)

/-- The context of a thread that is saved is below its stack pointer. -/
theorem Saved.contextAt {m : Bytes} {c : Word} {x : Thread} (h : Saved m c x) :
    contextAt x = c := by
  rw [Cte.contextAt, h.sp, BitVec.add_sub_cancel]

variable {k : Kernel ι} {o : OS ι} {s : CPU} {cp : ι → Word}

/-- An instruction of the thread that runs. -/
theorem Related.run (h : Related k o s cp) (hpc : s.pc ≠ k.irq) {e : Effect}
    (he : decodeExec s = some e) (hstop : e.stop = none) (hcsr : e.csr = [])
    (hown : ∀ st ∈ e.store, o.Own k (span st.addr st.len)) :
    k.next s = some (s.apply e) ∧ s.step = some (s.apply e) ∧
      Related k { o with cpu := s.apply e } (s.apply e) cp := by
  have hstep : s.step = some (s.apply e) := by
    rw [CPU.step, he, Option.bind_some, if_pos hstop]
  have hkeep : ∀ as : Set Word, (∀ st ∈ e.store, Disjoint (span st.addr st.len) as) →
      ∀ a ∈ as, (s.apply e).mem a = s.mem a := by
    intro as has a ha
    rw [CPU.apply]
    cases hst : e.store with
    | none => rfl
    | some st => exact write_of_notMem (Set.disjoint_right.mp (has st hst) ha)
  have hcsrs : (s.apply e).csr = s.csr := by
    rw [CPU.apply, hcsr]
    rfl
  refine ⟨(if_neg hpc).trans hstep, hstep, rfl, ?_, ?_, h.privLevel, ?_, ?_, ?_, h.nonnull, h.out⟩
  · exact h.code.congr (hkeep k.text fun st hst => (hown st hst).1)
  · rw [hcsrs, h.vec]
  · simp [CPU.apply]
  · exact k.sched.table_congr (hkeep _ fun st hst => (hown st hst).2.1) h.table
  · intro i hi
    have hout : ∀ st ∈ e.store, Disjoint (span st.addr st.len) (span (cp i) CONTEXT_SIZE) := by
      intro st hst
      rw [← (h.saved i hi).contextAt]
      exact (hown st hst).2.2 i hi
    exact (h.saved i hi).congr (hkeep _ hout)

/-- A thread that calls `yield`. -/
theorem Related.calls (h : Related k o s cp) (hpc : s.pc ≠ k.irq) (hcall : s.inst = ecall.word)
    (hown : o.Own k (k.stack (contextAt (running s)))) :
    Calls k.toEnv s (contextAt (running s)) where
  inst := hcall
  pc := hpc
  zero := h.zero
  sp := (BitVec.sub_add_cancel _ _).symm
  vec := h.vec
  privLevel := h.privLevel
  code := h.code
  out := hown.1

/-- **The scheduler is called**: it returns the context of some thread, and all contexts are those of
the threads. -/
theorem Related.scheduled (h : Related k o s cp) {c : Word}
    (hcalls : Calls k.toEnv s c) (ha5 : s.gpr a5 = -1) (hown : o.Own k (k.stack c)) :
    ∃ j m, k.sched.Picks o.cur j ∧
      k.sched.handler .yield c (told s c).2 = (Function.update cp o.cur c j, m) ∧
      k.sched.table m j (Function.update cp o.cur c) ∧
      (∀ i, Saved m (Function.update cp o.cur c i)
        (Function.update o.saved o.cur ⟨s.gpr, s.pc + 4, s.csr CSR.mstatus⟩ i)) ∧
      ∀ a ∉ span c CONTEXT_SIZE ∪ k.sched.data, m a = s.mem a := by
  obtain ⟨htext, hdata, hothers⟩ := hown
  have hctx := (Set.disjoint_union_left.mp hdata).1
  have hframe : ∀ a ∉ span c CONTEXT_SIZE, (told s c).2 a = s.mem a := fun _ ha => given_frame ha
  have htable : k.sched.table (told s c).2 o.cur cp :=
    k.sched.table_congr (fun a ha => hframe a (Set.disjoint_right.mp hctx ha)) h.table
  obtain ⟨j, m, hret, htable', hkeep⟩ := k.sched.schedules c htable
  refine ⟨j, m, ⟨_, c, cp, m, htable, hret, htable'⟩, hret, htable', fun i => ?_, fun a ha => ?_⟩
  · by_cases hi : i = o.cur
    · subst hi
      rw [Function.update_self, Function.update_self]
      have hsaved := hcalls.saved_told
      rw [if_pos ha5] at hsaved
      exact hsaved.congr fun a ha => hkeep a (Set.disjoint_left.mp hctx ha)
    · rw [Function.update_of_ne hi, Function.update_of_ne hi]
      have hout := Set.disjoint_union_left.mp (h.out i hi)
      have hother := hothers i hi
      rw [(h.saved i hi).contextAt] at hother
      have hother' := (Set.disjoint_union_left.mp hother).1
      refine (h.saved i hi).congr fun a ha => ?_
      rw [hkeep a (Set.disjoint_right.mp hout.1 ha), hframe a (Set.disjoint_right.mp hother' ha)]
  · rw [hkeep a fun hin => ha (.inr hin), hframe a fun hin => ha (.inl hin)]

/-- The contexts after a call: none is null, and the handler's own stack is apart from all of them,
as the table and the code are. -/
theorem Related.contexts (h : Related k o s cp) {c : Word} (hnull : c ≠ 0)
    (hown : o.Own k (k.stack c)) (i : ι) : Function.update cp o.cur c i ≠ 0 ∧
      Disjoint (k.sched.data ∪ k.text) (span (Function.update cp o.cur c i) CONTEXT_SIZE) ∧
      Disjoint (span (c - BitVec.ofNat 32 k.room) k.room)
        (span (Function.update cp o.cur c i) CONTEXT_SIZE) := by
  obtain ⟨htext, hdata, hothers⟩ := hown
  by_cases hi : i = o.cur
  · rw [hi, Function.update_self]
    refine ⟨hnull, Set.disjoint_union_left.mpr ⟨(Set.disjoint_union_left.mp hdata).1.symm,
      (Set.disjoint_union_left.mp htext).1.symm⟩, ?_⟩
    exact Set.disjoint_right.mpr fun a ha => @notMem_room k.toEnv _ _ ha
  · rw [Function.update_of_ne hi]
    refine ⟨h.nonnull i hi, h.out i hi, ?_⟩
    rw [← (h.saved i hi).contextAt]
    exact (Set.disjoint_union_left.mp (hothers i hi)).2

/-- `__am_irq_handle` hands the call to the scheduler. -/
theorem Related.irqHandle_eq (h : Related k o s cp) {c c' : Word} {m : Bytes}
    (ha5 : s.gpr a5 = -1) (hret : k.sched.handler .yield c (told s c).2 = (c', m)) (hne : c' ≠ 0) :
    irqHandle k.userHandler c (save s.mem c (context s.trap)) = some (c', m) := by
  have hyield : (told s c).1 = .yield := by
    have ha5' : s.trap.gpr a5 = -1 := (congrFun (gpr_trap h.zero) a5).trans ha5
    rw [told, given, if_pos ha5']
  have hret' : k.sched.handler (given s.trap c s.mem).1 c (given s.trap c s.mem).2 = (c', m) := by
    rw [← told, hyield, hret]
  rw [k.installed, irqHandle_given (csr_trap.2.2.2 h.privLevel), hret', if_neg hne]

/-- **A switch**: the machine comes to the thread that the scheduler has chosen. -/
theorem Related.yield (h : Related k o s cp) (hpc : s.pc ≠ k.irq) (hcall : s.inst = ecall.word)
    (ha5 : s.gpr a5 = -1) (hnull : contextAt (running s) ≠ 0)
    (hown : o.Own k (k.stack (contextAt (running s)))) :
    Leads k.next s fun t => ∃ o' cp', Switched k o o' ∧ Related k o' t cp' := by
  have hcalls := h.calls hpc hcall hown
  generalize hc : contextAt (running s) = c at hcalls hown hnull
  obtain ⟨j, m, hpick, hret, htable, hsaved, hmem⟩ := h.scheduled hcalls ha5 hown
  have hcp := h.contexts hnull hown
  obtain ⟨htext, hdata, -⟩ := hown
  have htext' := Set.disjoint_union_left.mp htext
  have hdata' := Set.disjoint_union_left.mp hdata
  have hirq := h.irqHandle_eq ha5 hret (hcp j).1
  generalize Function.update cp o.cur c = cp' at hirq htable hsaved hcp
  have hkeep : ∀ a ∈ k.text, m a = s.mem a := by
    intro a ha
    refine hmem a ?_
    rintro (hin | hin)
    · exact Set.disjoint_left.mp htext'.1 hin ha
    · exact Set.disjoint_left.mp k.data_text hin ha
  refine (hcalls.leads hirq hkeep).mono ?_
  rintro _ ⟨u, hu, rfl⟩
  have hroom : ∀ {as : Set Word}, Disjoint (span (c - BitVec.ofNat 32 k.room) k.room) as →
      ∀ a ∈ as, u.mem a = m a :=
    fun hd a ha => hu.mem a (Set.disjoint_right.mp hd ha)
  have hsaved' : ∀ i, Saved u.mem (cp' i) (Function.update o.saved o.cur
      ⟨s.gpr, s.pc + 4, s.csr CSR.mstatus⟩ i) :=
    fun i => (hsaved i).congr (hroom (hcp i).2.2)
  refine ⟨⟨resume u (cp' j), j, Function.update o.saved o.cur
      ⟨s.gpr, s.pc + 4, s.csr CSR.mstatus⟩⟩, cp', ?_, rfl, ?_, ?_, ?_, rfl, ?_,
    fun i _ => hsaved' i, fun i _ => (hcp i).1, fun i _ => (hcp i).2.1⟩
  · have hcpu := h.cpu
    subst hcpu
    refine ⟨hpick, rfl, (hsaved' j).resume, rfl, fun _ ha => csr_resume_trap hu.csr ha,
      hu.privLevel, fun a ha => ?_⟩
    rw [hc] at ha
    have hspill : a ∉ span (c - BitVec.ofNat 32 k.room) k.room := fun hin => ha (.inl (.inr hin))
    exact (hu.mem a hspill).trans (hmem a fun hin => ha (hin.imp_left .inl))
  · exact h.code.congr fun a ha => (hroom htext'.2 a ha).trans (hkeep a ha)
  · exact (congrFun hu.csr CSR.mtvec).trans h.vec
  · exact hu.privLevel.trans h.privLevel
  · exact k.sched.table_congr (hroom hdata'.2) htable

/-! ## Runs of threads -/

/-- **One step of the threads.** -/
theorem Related.step (h : Related k o s cp) (hsafe : o.Safe k) :
    Leads k.next s fun t => ∃ o', Step k o o' ∧ ∃ cp', Related k o' t cp' := by
  have hcpu := h.cpu
  subst hcpu
  cases hsafe with
  | yield hpc hcall ha5 hc hown =>
      refine (h.yield hpc hcall ha5 hc hown).mono ?_
      rintro t ⟨o', cp', hsw, hrel⟩
      exact ⟨o', .yield hcall hsw, cp', hrel⟩
  | run hpc hcall he hstop hcsr hown =>
      obtain ⟨hnext, hstep, hrel⟩ := h.run hpc he hstop hcsr hown
      exact Leads.step hnext (Leads.done ⟨_, .run hcall hstep, cp, hrel⟩)

/-- **Threads run on the machine as if each had registers of its own**, for any scheduler, as long as
no thread writes to the kernel, to the context of another thread or to a CSR. -/
theorem threads_run (k : Kernel ι) {o : OS ι} {s : CPU} (h : ∃ cp, Related k o s cp) (n : ℕ)
    (hsafe : ∀ m < n, ∀ p, Steps (Step k) m o p → p.Safe k) :
    Leads k.next s fun t => ∃ p, Steps (Step k) n o p ∧ ∃ cp, Related k p t cp := by
  refine Leads.simulation (R := fun o t => ∃ cp, Related k o t cp) h ?_
  rintro m hm p hp t ⟨cp, hrel⟩
  exact hrel.step (hsafe m hm p hp)

/-- A thread that does not run keeps its registers. -/
theorem Step.saved_eq {o o' : OS ι} (h : Step k o o') {i : ι} (hi : i ≠ o.cur) :
    o'.saved i = o.saved i := by
  cases h with
  | run => rfl
  | yield _ hsw => rw [hsw.saved, Function.update_of_ne hi]

/-! ## New threads -/

/-- A thread that is given to `kcontext`. -/
structure Start where
  stackEnd : Word
  entry : Word
  arg : Word

/-- The memory after calls of `kcontext`. -/
def kcontexts (m : Bytes) (ts : List Start) : Bytes :=
  ts.foldl (fun m t => (kcontext t.stackEnd t.entry t.arg m).2) m

/-- The address that `kcontext` returns. -/
def Start.at (t : Start) : Word := t.stackEnd - BitVec.ofNat 32 CONTEXT_SIZE

/-- A new thread is at the beginning of its function, with its argument and an empty stack.  In the
other registers it has what was in memory. -/
def Start.thread (t : Start) (m : Bytes) : Thread where
  gpr := fun r =>
    if r = a0 then t.arg
    else if r = sp then t.stackEnd
    else if r.toNat ∈ REGS then wordAt m (slot t.at r.toNat)
    else 0
  pc := t.entry
  status := 0x1800

/-- A thread that has not started is in its context only. -/
theorem Start.thread_congr (t : Start) {m m' : Bytes}
    (heq : ∀ a ∈ span t.at CONTEXT_SIZE, m' a = m a) : t.thread m' = t.thread m := by
  have hlt : ∀ n ∈ REGS, 4 * n < CONTEXT_SIZE := by decide
  have hgpr : (t.thread m').gpr = (t.thread m).gpr := by
    funext r
    simp only [thread]
    split_ifs with _ _ hr
    · rfl
    · rfl
    · exact wordAt_congr fun a ha => heq a (span_slot (hlt _ hr) ha)
    · rfl
  exact congrArg (fun g => { t.thread m with gpr := g }) hgpr

/-- What `kcontext` writes. -/
def Start.words (t : Start) : List (ℕ × Word) := [(mepc, t.entry), (mstatus, 0x1800), (10, t.arg)]

/-- `kcontext` writes three words. -/
theorem kcontext_eq (t : Start) (m : Bytes) :
    kcontext t.stackEnd t.entry t.arg m = (t.at, save m t.at t.words) := rfl

theorem Start.fst_mem {t : Start} {w : ℕ × Word} (hw : w ∈ t.words) : w.1 ∈ [mepc, mstatus, 10] :=
  List.mem_map_of_mem (f := Prod.fst) hw

/-- The words of the start are in the context. -/
theorem Start.words_lt {t : Start} : ∀ w ∈ t.words, 4 * w.1 < CONTEXT_SIZE := by
  intro w hw
  have hkey := fst_mem hw
  revert hkey
  generalize w.1 = k
  revert k
  decide

/-- What `kcontext` writes is the thread at its entry. -/
theorem saved_kcontext (t : Start) (m : Bytes) :
    Saved (kcontext t.stackEnd t.entry t.arg m).2 t.at (t.thread m) := by
  have hnodup : (t.words.map Prod.fst).Nodup := show [mepc, mstatus, 10].Nodup by decide
  have hsaved : ∀ {k v}, (k, v) ∈ t.words → wordAt (save m t.at t.words) (slot t.at k) = v :=
    wordAt_save hnodup Start.words_lt
  rw [kcontext_eq]
  refine ⟨fun n hn => ?_, (BitVec.sub_add_cancel _ _).symm, hsaved (.tail _ (.head _)),
    hsaved (.head _)⟩
  by_cases h10 : n = 10
  · subst h10
    exact hsaved (.tail _ (.tail _ (.head _)))
  · have hn' : 4 * n < CONTEXT_SIZE ∧ mepc ≠ n ∧ mstatus ≠ n ∧ BitVec.ofNat 5 n ≠ sp ∧
        (BitVec.ofNat 5 n).toNat = n := by
      revert n
      decide
    obtain ⟨hlt, hepc, hstatus, hsp, htoNat⟩ := hn'
    have ha0 : BitVec.ofNat 5 n ≠ a0 := fun h => h10 (by rw [← htoNat, h]; rfl)
    have hgpr : (t.thread m).gpr (BitVec.ofNat 5 n) = wordAt m (slot t.at n) := by
      simp only [Start.thread, if_neg ha0, if_neg hsp, htoNat, if_pos hn]
    rw [hgpr]
    refine wordAt_save_other hlt fun w hw => ⟨Start.words_lt w hw, fun heq => ?_⟩
    have hkey := Start.fst_mem hw
    rw [heq] at hkey
    simp only [List.mem_cons, List.not_mem_nil, or_false] at hkey
    rcases hkey with h | h | h
    · exact hepc h.symm
    · exact hstatus h.symm
    · exact h10 h

/-- A call of `kcontext` writes nothing else. -/
theorem kcontext_frame (t : Start) (m : Bytes) {a : Word} (ha : a ∉ span t.at CONTEXT_SIZE) :
    (kcontext t.stackEnd t.entry t.arg m).2 a = m a := save_frame Start.words_lt ha

/-- The calls write nothing else. -/
theorem kcontexts_frame (ts : List Start) (m : Bytes) {a : Word}
    (ha : ∀ t ∈ ts, a ∉ span t.at CONTEXT_SIZE) : kcontexts m ts a = m a := by
  induction ts generalizing m with
  | nil => rfl
  | cons t ts ih =>
      have htail : kcontexts m (t :: ts) = kcontexts (kcontext t.stackEnd t.entry t.arg m).2 ts := rfl
      rw [htail, ih _ fun u hu => ha u (List.mem_cons_of_mem t hu),
        kcontext_frame t m (ha t List.mem_cons_self)]

/-- **New threads** whose contexts do not overlap are all there. -/
theorem saved_kcontexts {ts : List Start} (m : Bytes)
    (hdisj : ts.Pairwise fun t u => Disjoint (span t.at CONTEXT_SIZE) (span u.at CONTEXT_SIZE)) :
    ∀ t ∈ ts, Saved (kcontexts m ts) t.at (t.thread m) := by
  induction ts generalizing m with
  | nil => exact fun t ht => absurd ht List.not_mem_nil
  | cons t ts ih =>
      rw [List.pairwise_cons] at hdisj
      obtain ⟨hhead, htail⟩ := hdisj
      intro u hu
      rcases List.mem_cons.mp hu with rfl | hmem
      · refine (saved_kcontext u m).congr fun a ha => kcontexts_frame ts _ fun v hv => ?_
        exact Set.disjoint_left.mp (hhead v hv) ha
      · have hthread : u.thread (kcontext t.stackEnd t.entry t.arg m).2 = u.thread m :=
          u.thread_congr fun a ha => kcontext_frame t m (Set.disjoint_right.mp (hhead u hmem) ha)
        rw [← hthread]
        exact ih _ htail u hmem

/-! ## Two threads that take turns -/

namespace Duo

/-- The data: the thread that runs, and the contexts of the two threads. -/
def data : Word := 0x80002000

/-- The number by which the table knows a thread. -/
def num (i : Bool) : Word := if i then 1 else 0

/-- Where the context of a thread is kept. -/
def entry (i : Bool) : ℕ := if i then 2 else 1

/-- The handler keeps the context and returns that of the other thread. -/
def handler : Handler := fun _ c m =>
  let i := decide (wordAt m (slot data 0) = 1)
  let m1 := write m (slot data (entry i)) 4 c
  let m2 := write m1 (slot data 0) 4 (num !i)
  (wordAt m2 (slot data (entry !i)), m2)

/-- Who runs is in the first word, the contexts are in the others. -/
def Table (m : Bytes) (i : Bool) (cp : Bool → Word) : Prop :=
  wordAt m (slot data 0) = num i ∧ ∀ j, wordAt m (slot data (entry j)) = cp j

/-- The scheduler stores the context of the one thread and returns that of the other. -/
theorem table_handler {m : Bytes} {i : Bool} {cp : Bool → Word} (c : Word) (h : Table m i cp) :
    ∃ m', handler .yield c m = (Function.update cp i c !i, m') ∧
      Table m' (!i) (Function.update cp i c) ∧ ∀ a ∉ span data CONTEXT_SIZE, m' a = m a := by
  obtain ⟨hcur, hcp⟩ := h
  have hi : decide (wordAt m (slot data 0) = 1) = i := by
    rw [hcur]
    cases i <;> rfl
  have hlt : ∀ j, 4 * entry j < CONTEXT_SIZE ∧ entry j ≠ 0 := by decide
  generalize hm1 : write m (slot data (entry i)) 4 c = m1
  generalize hm2 : write m1 (slot data 0) 4 (num !i) = m2
  have hentries : ∀ j, wordAt m2 (slot data (entry j)) = Function.update cp i c j := by
    intro j
    rw [← hm2, wordAt_write_slot m1 data _ (hlt j).1 (by decide) (hlt j).2, ← hm1]
    by_cases hj : j = i
    · rw [hj, wordAt_write_self, Function.update_self]
    · have hinj : ∀ i j, j ≠ i → entry j ≠ entry i := by decide
      rw [wordAt_write_slot m data c (hlt j).1 (hlt i).1 (hinj i j hj), Function.update_of_ne hj,
        hcp]
  refine ⟨m2, ?_, ⟨?_, hentries⟩, fun a ha => ?_⟩
  · rw [← hentries]
    simp only [handler, hi, hm1, hm2]
  · rw [← hm2, wordAt_write_self]
  · rw [← hm2, write_of_notMem fun h => ha (span_slot (by decide) h), ← hm1,
      write_of_notMem fun h => ha (span_slot (hlt i).1 h)]

/-- The handler with its table. -/
def scheduler : Scheduler Bool where
  handler := handler
  data := span data CONTEXT_SIZE
  table := Table
  table_congr := by
    rintro m m' i cp heq ⟨hcur, hcp⟩
    have hlt : ∀ j, 4 * entry j < CONTEXT_SIZE := by decide
    refine ⟨?_, fun j => ?_⟩
    · rw [wordAt_congr fun a ha => heq a (span_slot (by decide) ha), hcur]
    · rw [wordAt_congr fun a ha => heq a (span_slot (hlt j) ha), hcp]
  schedules := fun c h => ⟨_, table_handler c h⟩

/-- The threads take turns. -/
theorem eq_not_of_picks {i j : Bool} (h : scheduler.Picks i j) : j = !i := by
  obtain ⟨m, c, cp, m', htable, hret, htable'⟩ := h
  obtain ⟨m'', hret', htable'', -⟩ := table_handler c htable
  have hret : handler .yield c m = (Function.update cp i c j, m') := hret
  have hmem : m' = m'' := (Prod.mk.inj (hret.symm.trans hret')).2
  have hnum : num j = num !i := by rw [← htable'.1, hmem, htable''.1]
  have hinj : ∀ i j : Bool, num j = num (!i) → j = !i := by decide
  exact hinj i j hnum

/-- The trap code with it. -/
def kernel : Kernel Bool where
  toEnv := { spilling with userHandler := some handler }
  sched := scheduler
  installed := rfl
  data_text := disjoint_span (by decide) (by decide)

/-- The other thread, which has not run; its function calls `yield` at once. -/
def other : Start := ⟨0x80020000, 0x80003000, 7⟩

/-- The program with the table and a new thread. -/
def memory : Bytes := kcontexts (write program (slot data (entry true)) 4 other.at) [other]

/-- The first thread at its call. -/
def boot : CPU := calling memory

/-- The first thread behind its call. -/
def called : Thread := ⟨boot.gpr, boot.pc + 4, 0x1800⟩

/-- The first thread runs, the other one is new. -/
def start : OS Bool := ⟨boot, false, fun _ => other.thread
  (write program (slot data (entry true)) 4 other.at)⟩

/-- Elsewhere the memory is the program. -/
theorem memory_eq {a : Word} (hctx : a ∉ span other.at CONTEXT_SIZE)
    (hdata : a ∉ span data CONTEXT_SIZE) : memory a = program a := by
  have hframe : memory a = write program (slot data (entry true)) 4 other.at a :=
    kcontexts_frame [other] _ fun t ht => List.mem_singleton.mp ht ▸ hctx
  rw [hframe, write_of_notMem fun h => hdata (span_slot (by decide) h)]

/-- Code that is in the program is still there. -/
theorem codeAt_memory {base : Word} {code : List Asm} (h : CodeAt program base code)
    (hctx : Disjoint (span base (4 * code.length)) (span other.at CONTEXT_SIZE))
    (hdata : Disjoint (span base (4 * code.length)) (span data CONTEXT_SIZE)) :
    CodeAt memory base code :=
  h.congr fun _ ha => memory_eq (Set.disjoint_left.mp hctx ha) (Set.disjoint_left.mp hdata ha)

/-- The code of the environment is loaded. -/
theorem code_boot : CodeAt memory kernel.base kernel.code :=
  codeAt_memory code_program (disjoint_span (by decide) (by decide))
    (disjoint_span (by decide) (by decide))

/-- The code of the call is loaded. -/
theorem yield_boot : CodeAt memory 0x80003000 yield :=
  codeAt_memory yield_program (disjoint_span (by decide) (by decide))
    (disjoint_span (by decide) (by decide))

/-- The table is loaded. -/
theorem table_boot : Table memory false fun j => if j then other.at else 0 := by
  have hmem : ∀ k, 4 * k < CONTEXT_SIZE → wordAt memory (slot data k) =
      wordAt (write program (slot data (entry true)) 4 other.at) (slot data k) := by
    intro k hk
    refine wordAt_congr fun a ha => kcontexts_frame [other] _ fun t ht => ?_
    rw [List.mem_singleton.mp ht]
    have hctx : Disjoint (span data CONTEXT_SIZE) (span other.at CONTEXT_SIZE) :=
      disjoint_span (by decide) (by decide)
    exact Set.disjoint_left.mp hctx (span_slot hk ha)
  refine ⟨?_, fun j => ?_⟩
  · rw [hmem 0 (by decide), wordAt_write_slot _ _ _ (by decide) (by decide) (by decide)]
    decide +kernel
  · cases j
    · rw [hmem _ (by decide), wordAt_write_slot _ _ _ (by decide) (by decide) (by decide)]
      decide +kernel
    · rw [hmem _ (by decide), wordAt_write_self]
      rfl

/-- At the start the machine has one thread running and the other one in its context. -/
theorem related_start : Related kernel start boot fun j => if j then other.at else 0 where
  cpu := rfl
  code := code_boot
  vec := rfl
  privLevel := rfl
  zero := by decide
  table := table_boot
  saved := by
    rintro (_ | _) hi
    · exact absurd rfl hi
    · exact @saved_kcontexts [other] _ (List.pairwise_singleton _ _) other
        List.mem_cons_self
  nonnull := by
    rintro (_ | _) hi
    · exact absurd rfl hi
    · decide
  out := by
    rintro (_ | _) hi
    · exact absurd rfl hi
    · exact Set.disjoint_union_left.mpr
        ⟨disjoint_span (by decide) (by decide), disjoint_span (by decide) (by decide)⟩

/-! ### The turns -/

/-- The context of a thread on its stack. -/
def contextOf (i : Bool) : Word :=
  (if i then 0x80020000 else 0x80010000) - BitVec.ofNat 32 CONTEXT_SIZE

/-- A thread that calls `yield` writes nothing of the kernel and of the other thread. -/
theorem own_stack {o : OS Bool} (hother : contextAt (o.saved !o.cur) = contextOf !o.cur) :
    o.Own kernel (kernel.stack (contextOf o.cur)) := by
  have hdisj : ∀ i : Bool, ∀ b : Word, ∀ n : ℕ, CONTEXT_SIZE ≤ (b - contextOf i).toNat →
      n ≤ (contextOf i - b).toNat → 16 ≤ (b - (contextOf i - 16#32)).toNat →
      n ≤ (contextOf i - 16#32 - b).toNat → Disjoint (kernel.stack (contextOf i)) (span b n) :=
    fun i b n h1 h2 h3 h4 => Set.disjoint_union_left.mpr ⟨disjoint_span h1 h2, disjoint_span h3 h4⟩
  have htext : ∀ i, Disjoint (kernel.stack (contextOf i)) kernel.text := by
    rintro (_ | _) <;> exact hdisj _ _ _ (by decide) (by decide) (by decide) (by decide)
  have hdata : ∀ i, Disjoint (kernel.stack (contextOf i)) kernel.sched.data := by
    rintro (_ | _) <;> exact hdisj _ _ _ (by decide) (by decide) (by decide) (by decide)
  have hctx : ∀ i, Disjoint (kernel.stack (contextOf i)) (span (contextOf !i) CONTEXT_SIZE) := by
    rintro (_ | _) <;> exact hdisj _ _ _ (by decide) (by decide) (by decide) (by decide)
  refine ⟨htext _, hdata _, fun i hi => ?_⟩
  obtain rfl : i = !o.cur := Bool.eq_not_of_ne hi
  rw [hother]
  exact hctx _

/-- A thread at the call in `yield`. -/
theorem safe_call {o : OS Bool} (hpc : o.cpu.pc = 0x80003004)
    (hcode : CodeAt o.cpu.mem 0x80003000 yield) (ha5 : o.cpu.gpr a5 = -1)
    (hsp : contextAt (running o.cpu) = contextOf o.cur)
    (hother : contextAt (o.saved !o.cur) = contextOf !o.cur) : o.Safe kernel := by
  refine .yield (by rw [hpc]; decide) ?_ ha5 ?_ ?_
  · rw [CPU.inst, hpc]
    exact hcode 1 ecall rfl
  · rw [hsp]
    cases o.cur <;> decide
  · rw [hsp]
    exact own_stack hother

/-- The first thread calls. -/
theorem safe_start : start.Safe kernel :=
  safe_call rfl yield_boot (by decide) (by decide) (by decide)

/-- The other thread is in `yield`, and the first one behind its call. -/
structure Waiting (o : OS Bool) (pc : Word) : Prop where
  cur : o.cur = true
  saved : o.saved false = called
  pc : o.cpu.pc = pc
  sp : o.cpu.gpr sp = other.stackEnd
  zero : o.cpu.gpr 0 = 0
  code : CodeAt o.cpu.mem 0x80003000 yield

/-- The first thread yields. -/
theorem waiting_first {o : OS Bool} (h : Step kernel start o) : Waiting o 0x80003000 := by
  cases h with
  | run hcall => exact absurd (yield_boot 1 ecall rfl) hcall
  | yield _ hsw =>
      have hcur : o.cur = true := eq_not_of_picks hsw.picked
      have hsaved : o.saved = Function.update start.saved false called := hsw.saved
      have hruns := hsw.runs
      rw [hcur, hsaved, Function.update_of_ne (by decide)] at hruns
      refine ⟨hcur, by rw [hsaved, Function.update_self], hruns.pc,
        hruns.gpr sp (by decide) (by decide), hsw.zero, yield_boot.congr fun a ha => ?_⟩
      have hstack : contextAt (running start.cpu) = contextOf false := by decide
      refine hsw.mem a ?_
      rw [hstack]
      have hout : Disjoint (span 0x80003000 (4 * yield.length))
          (kernel.stack (contextOf false) ∪ kernel.sched.data) :=
        Set.disjoint_union_right.mpr ⟨Set.disjoint_union_right.mpr
          ⟨disjoint_span (by decide) (by decide), disjoint_span (by decide) (by decide)⟩,
          disjoint_span (by decide) (by decide)⟩
      exact Set.disjoint_left.mp hout ha

variable {o o' : OS Bool}

/-- A thread that waits is at its call. -/
theorem Waiting.inst (h : Waiting o 0x80003000) : o.cpu.inst = (li a5 (-1)).word := by
  rw [CPU.inst, h.pc]
  exact h.code 0 _ rfl

/-- What a thread that waits does next is safe. -/
theorem Waiting.safe (h : Waiting o 0x80003000) : o.Safe kernel := by
  refine .run (by rw [h.pc]; decide) ?_ ((decodeExec_of_word h.inst (by decide +kernel)).trans rfl)
    rfl rfl fun st (hst : st ∈ none) => absurd hst (Option.not_mem_none st)
  rw [h.inst]
  decide +kernel

/-- The other thread goes on to its call. -/
theorem Waiting.next (h : Waiting o 0x80003000) (hs : Step kernel o o') :
    Waiting o' 0x80003004 ∧ o'.cpu.gpr a5 = -1 := by
  cases hs with
  | run _ hstep =>
      rw [step_of_word h.inst (by decide +kernel), Option.some_inj, li, exec_addi] at hstep
      subst hstep
      refine ⟨⟨h.cur, h.saved, ?_, ?_, ?_, h.code⟩, ?_⟩
      · rw [CPU.pc_assign, h.pc]
        rfl
      · rw [CPU.gpr_assign, if_neg (by decide), if_neg (by decide), h.sp]
      · rw [CPU.gpr_assign, if_pos rfl]
      · rw [CPU.gpr_assign, if_neg (by decide), if_pos rfl, h.zero]
        rfl
  | yield hcall =>
      rw [h.inst] at hcall
      exact absurd hcall (by decide +kernel)

/-- The call of a thread that waits is safe. -/
theorem Waiting.safe_call (h : Waiting o 0x80003004) (ha5 : o.cpu.gpr a5 = -1) :
    o.Safe kernel := by
  refine Duo.safe_call h.pc h.code ha5 ?_ ?_
  · have hctx : contextAt (running o.cpu) = o.cpu.gpr Cte.sp - BitVec.ofNat 32 CONTEXT_SIZE := rfl
    rw [hctx, h.sp, h.cur]
    rfl
  · rw [h.cur, Bool.not_true, h.saved]
    decide

/-- The other thread yields, and the first one goes on. -/
theorem Waiting.resumed (h : Waiting o 0x80003004) (hs : Step kernel o o') :
    o'.cur = false ∧ Runs called o'.cpu := by
  cases hs with
  | run hcall =>
      refine absurd ?_ hcall
      rw [CPU.inst, h.pc]
      exact h.code 1 ecall rfl
  | yield _ hsw =>
      have hcur : o'.cur = false := by
        rw [eq_not_of_picks hsw.picked, h.cur]
        rfl
      have hruns := hsw.runs
      rw [hcur, hsw.saved, h.cur, Function.update_of_ne (by decide), h.saved] at hruns
      exact ⟨hcur, hruns⟩

/-- All steps are safe. -/
theorem safe_steps : ∀ m < 3, ∀ p, Steps (Step kernel) m start p → p.Safe kernel := by
  intro m hm p hp
  rcases (show m = 0 ∨ m = 1 ∨ m = 2 by omega) with rfl | rfl | rfl
  · rw [← show start = p from hp]
    exact safe_start
  · obtain ⟨o, ho, h1⟩ := hp
    rw [← show start = o from ho] at h1
    exact (waiting_first h1).safe
  · obtain ⟨o', ⟨o, ho, h1⟩, h2⟩ := hp
    rw [← show start = o from ho] at h1
    obtain ⟨hwait, ha5⟩ := (waiting_first h1).next h2
    exact hwait.safe_call ha5

end Duo

/-- One thread yields, the other one runs up to its call, and the first one goes on behind its own
with the registers it had. -/
theorem threads_run_two : Leads Duo.kernel.next Duo.boot fun t =>
    ∃ p, (Steps (Step Duo.kernel) 3 Duo.start p ∧ ∃ cp, Related Duo.kernel p t cp) ∧
      p.cur = false ∧ Runs Duo.called t := by
  refine (threads_run Duo.kernel ⟨_, Duo.related_start⟩ 3 Duo.safe_steps).mono ?_
  rintro t ⟨p, hp, cp, hrel⟩
  refine ⟨p, ⟨hp, cp, hrel⟩, ?_⟩
  obtain ⟨o₂, ⟨o₁, ⟨o, ho, h1⟩, h2⟩, h3⟩ := hp
  rw [← show Duo.start = o from ho] at h1
  rw [← hrel.cpu]
  exact ((Duo.waiting_first h1).next h2).1.resumed h3

end Cte

end Nemu

end Bailuwan
