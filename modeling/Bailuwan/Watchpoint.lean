/-
# The commands on watchpoints and breakpoints (`sdb/main.cpp`, `sdb/watchpoint.cpp`)

`w`, `b` and `d` create and delete watchpoints and breakpoints, and `wp_update` and
`bp_update` look at them after each instruction.  The expression of a watchpoint is a string
on the heap; `Strings` has the ones that are not freed.

* Every history of creations and deletions keeps the lists of a pool a partition of its
  array (`pools_sound`), and the commands make such histories (`Reachable.wp`,
  `Reachable.bp`).
* The command `d` ends the debugger whenever what it is to delete is not in use
  (`delete_inactive`).
-/
import Bailuwan.Pool

namespace Bailuwan

namespace Sdb

/-! ## Strings -/

/-- The heap, as far as it holds strings; `fresh` has not been given out yet. -/
structure Strings where
  block : ℕ → Option (List Char)
  fresh : ℕ

namespace Strings

variable (h : Strings)

/-- `strdup` -/
def strdup (s : List Char) : ℕ × Strings :=
  (h.fresh, { block := Function.update h.block h.fresh (some s), fresh := h.fresh + 1 })

/-- `free`, also of a null pointer. -/
def free : Option ℕ → Except PoolFault Strings
  | none => .ok h
  | some k =>
      match h.block k with
      | none => .error .dangling
      | some _ => .ok { h with block := Function.update h.block k none }

end Strings

/-! ## The pools -/

/-- The number of watchpoints. -/
def NR_WP : ℕ := 32

/-- The number of breakpoints. -/
def NR_BP : ℕ := 32

/-- What a watchpoint has besides its number and link. -/
structure Watch where
  expr : Option ℕ := none
  lastVal : Word := 0
  lastValValid : Bool := false
  deriving DecidableEq, Repr

/-- `init_wp_pool` -/
def initWpPool (p : Pool Watch) : Pool Watch := p.init NR_WP 0

/-- `init_bp_pool`; the content of a breakpoint is its address. -/
def initBpPool (p : Pool Word) : Pool Word := p.init NR_BP NR_WP

/-- `new_wp` -/
def newWp (p : Pool Watch) : Except PoolFault (ℕ × Pool Watch) := p.new

/-- `new_bp` -/
def newBp (p : Pool Word) : Except PoolFault (ℕ × Pool Word) := p.new

/-- `free_wp`; the loop goes over the pool once. -/
def freeWp (wp : ℕ) (p : Pool Watch) (h : Strings) : Except PoolFault (Pool Watch × Strings) := do
  let h ← h.free (p.entry wp).content.expr
  let p ← p.release (NR_WP + 1) wp
  return (p, h)

/-- `free_bp` -/
def freeBp (bp : ℕ) (p : Pool Word) : Except PoolFault (Pool Word) := p.release (NR_BP + 1) bp

/-- Nothing is set before `main`. -/
def zeroPool {α : Type} (x : α) : Pool α := ⟨fun _ => ⟨0, none, x⟩, none, none⟩

/-! ### Histories -/

/-- What happens to an entry of a pool. -/
inductive Event
  | created (i : ℕ)
  | deleted (i : ℕ)
  deriving DecidableEq, Repr

/-- What has been created and not yet deleted, the latest first. -/
def active (es : List Event) : List ℕ :=
  es.foldl (fun act e => match e with
    | .created i => i :: act
    | .deleted i => act.erase i) []

/-- What is created is active. -/
@[simp] theorem active_created {es : List Event} {i : ℕ} :
    active (es ++ [.created i]) = i :: active es := by
  rw [active, List.foldl_append]
  rfl

/-- What is deleted is not active any more. -/
@[simp] theorem active_deleted {es : List Event} {i : ℕ} :
    active (es ++ [.deleted i]) = (active es).erase i := by
  rw [active, List.foldl_append]
  rfl

/-- Calls of `new_wp`, of `free_wp` for what is in use, and assignments to the contents and
strings in between. -/
inductive WpHistory : List Event → Pool Watch → Strings → Prop
  | init (p : Pool Watch) (h : Strings) : WpHistory [] (initWpPool p) h
  | create {es : List Event} {p p' : Pool Watch} {h : Strings} {i : ℕ} (hist : WpHistory es p h)
      (hnew : newWp p = .ok (i, p')) : WpHistory (es ++ [.created i]) p' h
  | delete {es : List Event} {p p' : Pool Watch} {h h' : Strings} {i : ℕ}
      (hist : WpHistory es p h) (hi : i ∈ active es) (hfree : freeWp i p h = .ok (p', h')) :
      WpHistory (es ++ [.deleted i]) p' h'
  | assign {es : List Event} {p : Pool Watch} {h : Strings} (hist : WpHistory es p h) (i : ℕ)
      (x : Watch) (h' : Strings) : WpHistory es (p.setContent i x) h'

/-- Calls of `new_bp`, of `free_bp` for what is in use, and assignments of addresses. -/
inductive BpHistory : List Event → Pool Word → Prop
  | init (p : Pool Word) : BpHistory [] (initBpPool p)
  | create {es : List Event} {p p' : Pool Word} {i : ℕ} (hist : BpHistory es p)
      (hnew : newBp p = .ok (i, p')) : BpHistory (es ++ [.created i]) p'
  | delete {es : List Event} {p p' : Pool Word} {i : ℕ} (hist : BpHistory es p)
      (hi : i ∈ active es) (hfree : freeBp i p = .ok p') : BpHistory (es ++ [.deleted i]) p'
  | assign {es : List Event} {p : Pool Word} (hist : BpHistory es p) (i : ℕ) (addr : Word) :
      BpHistory es (p.setContent i addr)

open Pool (Partitioned)

variable {es : List Event} {wp wp' : Pool Watch} {bp bp' : Pool Word} {h h' : Strings} {i n : ℕ}

/-- `free_wp` gives its entry back to the pool. -/
theorem release_of_freeWp (hfree : freeWp i wp h = .ok (wp', h')) :
    wp.release (NR_WP + 1) i = .ok wp' := by
  unfold freeWp at hfree
  cases hs : h.free (wp.entry i).content.expr with
  | error f => rw [hs] at hfree; cases hfree
  | ok g =>
      cases hr : wp.release (NR_WP + 1) i with
      | error f => rw [hs, hr] at hfree; cases hfree
      | ok q =>
          rw [hs, hr] at hfree
          cases hfree
          rfl

/-- A deletion that is a release of an entry in use. -/
theorem released {α : Type} {base : ℕ} {act : List ℕ} {p p' : Pool α} (hp : Partitioned n base act p)
    (hi : i ∈ act) (hfree : p.release (n + 1) i = .ok p') :
    Partitioned n base (act.erase i) p' ∧ ∀ j, (p'.entry j).content = (p.entry j).content := by
  obtain ⟨q, hq, hpart, hcontent⟩ := hp.release hi
  rw [hfree] at hq
  cases hq
  exact ⟨hpart, hcontent⟩

/-- The pool of watchpoints is what its history says. -/
theorem WpHistory.partitioned (hist : WpHistory es wp h) : Partitioned NR_WP 0 (active es) wp := by
  induction hist with
  | init p h => exact Pool.partitioned_init (by decide)
  | create _ hnew ih =>
      rw [active_created]
      exact ih.new hnew
  | delete _ hi hfree ih =>
      rw [active_deleted]
      exact (released ih hi (release_of_freeWp hfree)).1
  | assign _ i x _ ih => exact ih.setContent i x

/-- The pool of breakpoints is what its history says. -/
theorem BpHistory.partitioned (hist : BpHistory es bp) :
    Partitioned NR_BP NR_WP (active es) bp := by
  induction hist with
  | init p => exact Pool.partitioned_init (by decide)
  | create _ hnew ih =>
      rw [active_created]
      exact ih.new hnew
  | delete _ hi hfree ih =>
      rw [active_deleted]
      exact (released ih hi hfree).1
  | assign _ i x ih => exact ih.setContent i x

/-- **The pools stay partitioned** into what is in use, the latest first, and what is free;
every entry keeps its number, and a deletion takes one entry off the list and leaves all
contents. -/
theorem pools_sound :
    (∀ es p h, WpHistory es p h → Partitioned NR_WP 0 (active es) p ∧
      ∀ i ∈ active es, ∀ p' h', freeWp i p h = .ok (p', h') →
        Partitioned NR_WP 0 ((active es).erase i) p' ∧
          ∀ j, (p'.entry j).content = (p.entry j).content) ∧
    (∀ es p, BpHistory es p → Partitioned NR_BP NR_WP (active es) p ∧
      ∀ i ∈ active es, ∀ p', freeBp i p = .ok p' →
        Partitioned NR_BP NR_WP ((active es).erase i) p' ∧
          ∀ j, (p'.entry j).content = (p.entry j).content) := by
  constructor
  · intro es p h hist
    refine ⟨hist.partitioned, fun i hi p' h' hfree => ?_⟩
    exact released hist.partitioned hi (release_of_freeWp hfree)
  · intro es p hist
    refine ⟨hist.partitioned, fun i hi p' hfree => ?_⟩
    exact released hist.partitioned hi hfree

/-- Three breakpoints, the second of which is deleted. -/
def deleteSecond : Except PoolFault (Pool Word) := do
  let (_, p) ← newBp (initBpPool (zeroPool 0))
  let (_, p) ← newBp p
  let (_, p) ← newBp p
  freeBp 1 p

/-- The first and the third one are left. -/
theorem pools_sound_deleteSecond : ∃ p, deleteSecond = .ok p ∧ Partitioned NR_BP NR_WP [2, 0] p :=
  ⟨_, rfl, (pools_sound.2 [.created 0, .created 1, .created 2, .deleted 1] _
    (.delete (.create (.create (.create (.init _) rfl) rfl) rfl) (by decide) rfl)).1⟩

/-! ## The commands -/

/-- `SDBState` -/
inductive SDBState
  | Running
  | Stop
  | End
  | Quit
  | Abort
  deriving DecidableEq, Repr

/-- The debugger, as far as watchpoints and breakpoints go. -/
structure State where
  wp : Pool Watch
  bp : Pool Word
  strings : Strings
  sdbState : SDBState

namespace Debugger

/-- `expr` as the watchpoints use it. -/
def evaluate (d : Debugger) (e : List Char) : Except PoolFault (Option Word) :=
  (d.expr e).mapError PoolFault.expr

/-- What breakpoints are compared with: `exu_pc` or `cpu.pc`. -/
def pc : Debugger → Word
  | npc m => m.exuPc
  | nemu m => m.cpu.pc

end Debugger

namespace State

variable (d : Debugger) (s : State)

/-- The string of a watchpoint. -/
def text (i : ℕ) : Except PoolFault (List Char) :=
  match (s.wp.entry i).content.expr with
  | none => .error .dangling
  | some k =>
      match s.strings.block k with
      | none => .error .dangling
      | some e => .ok e

/-- A watchpoint or breakpoint is hit. -/
def hit : SDBState := if s.sdbState = .Running then .Stop else s.sdbState

/-- `wp_update_one` -/
def wpUpdateOne (i : ℕ) : Except PoolFault State := do
  let watch := (s.wp.entry i).content
  let e ← s.text i
  let val ← d.evaluate e
  if watch.lastValValid = false then
    let watch := { watch with lastVal := val.getD 0, lastValValid := val.isSome }
    return { s with wp := s.wp.setContent i watch }
  else
    match val with
    | none => return s
    | some currVal =>
        if watch.lastVal = currVal then return s
        else
          let watch := { watch with lastVal := currVal }
          return { s with wp := s.wp.setContent i watch, sdbState := s.hit }

/-- The loop of `wp_update` from `p` on. -/
def wpUpdate (d : Debugger) : ℕ → Option ℕ → State → Except PoolFault State
  | 0, _, _ => .error .outOfFuel
  | _ + 1, none, s => .ok s
  | fuel + 1, some i, s => do
      let s ← s.wpUpdateOne d i
      wpUpdate d fuel (s.wp.links i) s

/-- `bp_update_one` -/
def bpUpdateOne (i : ℕ) : State :=
  if d.pc = (s.bp.entry i).content then { s with sdbState := s.hit } else s

/-- The loop of `bp_update` from `p` on. -/
def bpUpdate (d : Debugger) : ℕ → Option ℕ → State → Except PoolFault State
  | 0, _, _ => .error .outOfFuel
  | _ + 1, none, s => .ok s
  | fuel + 1, some i, s => bpUpdate d fuel (s.bp.links i) (s.bpUpdateOne d i)

/-- `wp_create` -/
def wpCreate (e : List Char) : Except PoolFault State := do
  if (← (syntaxCheck e).mapError PoolFault.expr) = false then return s
  else
    let (i, wp) ← newWp s.wp
    let (k, strings) := s.strings.strdup e
    let watch : Watch := { expr := some k, lastVal := 0, lastValValid := false }
    wpUpdateOne d { s with wp := wp.setContent i watch, strings := strings } i

/-- `bp_create` -/
def bpCreate (addr : Word) : Except PoolFault State := do
  let (i, bp) ← newBp s.bp
  return bpUpdateOne d { s with bp := bp.setContent i addr } i

/-- `wp_delete` -/
def wpDelete (NO : ℕ) : Except PoolFault State := do
  let (wp, strings) ← freeWp NO s.wp s.strings
  return { s with wp, strings }

/-- `bp_delete`; the number is used for the place in the array. -/
def bpDelete (NO : ℕ) : Except PoolFault State := do
  let bp ← freeBp NO s.bp
  return { s with bp }

/-- `cmd_w` -/
def cmdW : Option (List Char) → Except PoolFault State
  | none => .ok s
  | some args => s.wpCreate d args

/-- `cmd_b`, with `ftrace_get_address_of`. -/
def cmdB (addressOf : List Char → Word) : Option (List Char) → Except PoolFault State
  | none => .ok s
  | some args =>
      match strtol args 16 with
      | none => if addressOf args = 0 then .ok s else s.bpCreate d (addressOf args)
      | some v => s.bpCreate d (BitVec.ofInt 32 v)

/-- The index given to `cmd_d`, an `int`. -/
def index (args : List Char) : Option ℤ := (strtol args 10).map fun v => (BitVec.ofInt 32 v).toInt

/-- `cmd_d` -/
def cmdD : Option (List Char) → Except PoolFault State
  | none => .ok s
  | some args =>
      match index args with
      | none => .ok s
      | some n =>
          if n ≥ 0 ∧ n < NR_WP then s.wpDelete n.toNat
          else if n ≥ NR_WP ∧ n < NR_WP + NR_BP then s.bpDelete n.toNat
          else .ok s

end State

/-- The debugger is started. -/
def State.start : State where
  wp := initWpPool (zeroPool {})
  bp := initBpPool (zeroPool 0)
  strings := ⟨fun _ => none, 0⟩
  sdbState := .Stop

/-- The states that commands and updates lead to; the program runs in between, so each step
has a machine of its own, and any command may set `sdb_state`. -/
inductive Reachable : State → Prop
  | start : Reachable State.start
  | w {s s' : State} (h : Reachable s) (d : Debugger) (args : Option (List Char))
      (hs : s.cmdW d args = .ok s') : Reachable s'
  | b {s s' : State} (h : Reachable s) (d : Debugger) (addressOf : List Char → Word)
      (args : Option (List Char)) (hs : s.cmdB d addressOf args = .ok s') : Reachable s'
  | d {s s' : State} (h : Reachable s) (args : Option (List Char)) (hs : s.cmdD args = .ok s') :
      Reachable s'
  | wpUpdate {s s' : State} (h : Reachable s) (d : Debugger) (fuel : ℕ)
      (hs : State.wpUpdate d fuel s.wp.head s = .ok s') : Reachable s'
  | bpUpdate {s s' : State} (h : Reachable s) (d : Debugger) (fuel : ℕ)
      (hs : State.bpUpdate d fuel s.bp.head s = .ok s') : Reachable s'
  | other {s : State} (h : Reachable s) (sdbState : SDBState) : Reachable { s with sdbState }

/-! ## What the commands do to the pools -/

/-- The pools have histories. -/
structure Sound (s : State) : Prop where
  wp : ∃ es, WpHistory es s.wp s.strings
  bp : ∃ es, BpHistory es s.bp

variable {s s' : State} {d : Debugger} {args : List Char}

/-- What `free_wp` frees is in use. -/
theorem mem_of_freeWp (hist : WpHistory es wp h) (hfree : freeWp i wp h = .ok (wp', h')) :
    i ∈ active es := by
  by_contra hi
  have herr := hist.partitioned.release_of_not_mem hi
  rw [release_of_freeWp hfree] at herr
  cases herr

/-- A breakpoint that is freed was active. -/
theorem mem_of_freeBp (hist : BpHistory es bp) (hfree : freeBp i bp = .ok bp') : i ∈ active es := by
  by_contra hi
  have herr := hist.partitioned.release_of_not_mem hi
  rw [show bp.release (NR_BP + 1) i = .ok bp' from hfree] at herr
  cases herr

/-- A watchpoint that is looked at keeps the pools sound. -/
theorem Sound.wpUpdateOne (hs : Sound s) (hup : s.wpUpdateOne d i = .ok s') : Sound s' := by
  obtain ⟨es, hwp⟩ := hs.wp
  unfold State.wpUpdateOne at hup
  cases ht : s.text i with
  | error f => rw [ht] at hup; cases hup
  | ok e =>
      cases he : d.evaluate e with
      | error f => rw [ht] at hup; simp only [bind, Except.bind, he] at hup; cases hup
      | ok val =>
          rw [ht] at hup
          simp only [bind, Except.bind, he] at hup
          split_ifs at hup
          · cases hup
            exact ⟨⟨es, hwp.assign i _ s.strings⟩, hs.bp⟩
          · cases val with
            | none =>
                cases hup
                exact hs
            | some currVal =>
                simp only at hup
                split_ifs at hup
                · cases hup
                  exact hs
                · cases hup
                  exact ⟨⟨es, hwp.assign i _ s.strings⟩, hs.bp⟩

/-- All watchpoints that are looked at keep the pools sound. -/
theorem Sound.wpUpdate {fuel : ℕ} {p : Option ℕ} (hs : Sound s)
    (hup : State.wpUpdate d fuel p s = .ok s') : Sound s' := by
  induction fuel generalizing s p with
  | zero => cases hup
  | succ fuel ih =>
      cases p with
      | none =>
          cases hup
          exact hs
      | some i =>
          rw [State.wpUpdate] at hup
          cases h1 : s.wpUpdateOne d i with
          | error f => rw [h1] at hup; cases hup
          | ok t =>
              rw [h1] at hup
              exact ih (hs.wpUpdateOne h1) hup

/-- A breakpoint that is looked at keeps the pools sound. -/
theorem Sound.bpUpdateOne (hs : Sound s) (d : Debugger) (i : ℕ) : Sound (s.bpUpdateOne d i) := by
  rw [State.bpUpdateOne]
  split_ifs
  · exact ⟨hs.wp, hs.bp⟩
  · exact hs

/-- All breakpoints that are looked at keep the pools sound. -/
theorem Sound.bpUpdate {fuel : ℕ} {p : Option ℕ} (hs : Sound s)
    (hup : State.bpUpdate d fuel p s = .ok s') : Sound s' := by
  induction fuel generalizing s p with
  | zero => cases hup
  | succ fuel ih =>
      cases p with
      | none =>
          cases hup
          exact hs
      | some i => exact ih (hs.bpUpdateOne d i) hup

/-- The creation of a watchpoint keeps the pools sound. -/
theorem Sound.wpCreate (hs : Sound s) (hup : s.wpCreate d args = .ok s') : Sound s' := by
  obtain ⟨es, hwp⟩ := hs.wp
  unfold State.wpCreate at hup
  cases hsyn : (syntaxCheck args).mapError PoolFault.expr with
  | error f => rw [hsyn] at hup; cases hup
  | ok b =>
      rw [hsyn] at hup
      simp only [bind, Except.bind] at hup
      split_ifs at hup
      · cases hup
        exact hs
      · cases hnew : newWp s.wp with
        | error f => rw [hnew] at hup; cases hup
        | ok q =>
            obtain ⟨i, wp⟩ := q
            rw [hnew] at hup
            have hsound : Sound { s with
                wp := wp.setContent i { expr := some (s.strings.strdup args).1 }
                strings := (s.strings.strdup args).2 } :=
              ⟨⟨_, (hwp.create hnew).assign i _ _⟩, hs.bp⟩
            exact hsound.wpUpdateOne hup

/-- The creation of a breakpoint keeps the pools sound. -/
theorem Sound.bpCreate {addr : Word} (hs : Sound s) (hup : s.bpCreate d addr = .ok s') :
    Sound s' := by
  obtain ⟨es, hbp⟩ := hs.bp
  unfold State.bpCreate at hup
  cases hnew : newBp s.bp with
  | error f => rw [hnew] at hup; cases hup
  | ok q =>
      obtain ⟨i, bp⟩ := q
      rw [hnew] at hup
      cases hup
      have hsound : Sound { s with bp := bp.setContent i addr } :=
        ⟨hs.wp, ⟨_, (hbp.create hnew).assign i addr⟩⟩
      exact hsound.bpUpdateOne d i

/-- The deletion of a watchpoint keeps the pools sound. -/
theorem Sound.wpDelete (hs : Sound s) (hup : s.wpDelete n = .ok s') : Sound s' := by
  obtain ⟨es, hwp⟩ := hs.wp
  unfold State.wpDelete at hup
  cases hfree : freeWp n s.wp s.strings with
  | error f => rw [hfree] at hup; cases hup
  | ok q =>
      obtain ⟨wp, strings⟩ := q
      rw [hfree] at hup
      cases hup
      exact ⟨⟨_, hwp.delete (mem_of_freeWp hwp hfree) hfree⟩, hs.bp⟩

/-- The deletion of a breakpoint keeps the pools sound. -/
theorem Sound.bpDelete (hs : Sound s) (hup : s.bpDelete n = .ok s') : Sound s' := by
  obtain ⟨es, hbp⟩ := hs.bp
  unfold State.bpDelete at hup
  cases hfree : freeBp n s.bp with
  | error f => rw [hfree] at hup; cases hup
  | ok bp =>
      rw [hfree] at hup
      cases hup
      exact ⟨hs.wp, ⟨_, hbp.delete (mem_of_freeBp hbp hfree) hfree⟩⟩

/-- **The commands make histories.** -/
theorem Reachable.sound (h : Reachable s) : Sound s := by
  induction h with
  | start => exact ⟨⟨[], .init _ _⟩, ⟨[], .init _⟩⟩
  | w _ d args hs ih =>
      cases args with
      | none =>
          cases hs
          exact ih
      | some args => exact ih.wpCreate hs
  | b _ d addressOf args hs ih =>
      cases args with
      | none =>
          cases hs
          exact ih
      | some args =>
          rw [State.cmdB] at hs
          split at hs
          · split_ifs at hs
            · cases hs
              exact ih
            · exact ih.bpCreate hs
          · exact ih.bpCreate hs
  | d _ args hs ih =>
      cases args with
      | none =>
          cases hs
          exact ih
      | some args =>
          rw [State.cmdD] at hs
          split at hs
          · cases hs
            exact ih
          · split_ifs at hs
            · exact ih.wpDelete hs
            · exact ih.bpDelete hs
            · cases hs
              exact ih
  | wpUpdate _ d fuel hs ih => exact ih.wpUpdate hs
  | bpUpdate _ d fuel hs ih => exact ih.bpUpdate hs
  | other _ sdbState ih => exact ⟨ih.wp, ih.bp⟩

/-! ## Deleting what is not in use -/

/-- On the list of what is in use. -/
def Pool.InUse {α : Type} (p : Pool α) (i : ℕ) : Prop :=
  ∃ l, LinkedList.Chain p.links p.head l ∧ i ∈ l

/-- The watchpoint or breakpoint with a number is in use. -/
def State.InUse (s : State) (n : ℕ) : Prop :=
  n < NR_WP ∧ s.wp.InUse n ∨ NR_WP ≤ n ∧ s.bp.InUse (n - NR_WP)

/-- An entry in use is an active one. -/
theorem Pool.Partitioned.inUse_iff {α : Type} {base : ℕ} {act : List ℕ} {p : Pool α}
    (hp : Partitioned n base act p) : p.InUse i ↔ i ∈ act := by
  obtain ⟨l, hact, -, -⟩ := hp.lists
  constructor
  · rintro ⟨l', hl', hi⟩
    rwa [hact.unique hl']
  · exact fun hi => ⟨act, hact, hi⟩

/-- The command leaves everything as it is and returns. -/
def State.DeletesNothing (s : State) (args : List Char) : Prop := s.cmdD (some args) = .ok s

/-- The deletion of a watchpoint that is not active does not succeed. -/
theorem wpDelete_inactive (hs : Sound s) (hn : ¬ s.wp.InUse n) :
    s.wpDelete n = .error .panic ∨ s.wpDelete n = .error .dangling := by
  obtain ⟨es, hwp⟩ := hs.wp
  have hrel := hwp.partitioned.release_of_not_mem (mt hwp.partitioned.inUse_iff.mpr hn)
  unfold State.wpDelete freeWp
  cases hexpr : (s.wp.entry n).content.expr with
  | none =>
      left
      simp only [Strings.free, hrel]
      rfl
  | some k =>
      cases hk : s.strings.block k with
      | none =>
          right
          simp only [Strings.free, hk]
          rfl
      | some e =>
          left
          simp only [Strings.free, hk, hrel]
          rfl

/-- The number of a breakpoint lies beyond the array of breakpoints. -/
theorem bpDelete_panics (hs : Sound s) (hn : NR_WP ≤ n) : s.bpDelete n = .error .panic := by
  obtain ⟨es, hbp⟩ := hs.bp
  have hpart := hbp.partitioned
  have hmem : n ∉ active es := by
    intro hmem
    obtain ⟨l, -, -, hperm⟩ := hpart.lists
    have hrange := List.mem_range.mp (hperm.subset (List.mem_append_left l hmem))
    exact absurd hrange (not_lt_of_ge hn)
  unfold State.bpDelete freeBp
  rw [hpart.release_of_not_mem hmem]
  rfl

/-- **`d` ends the debugger** when its argument is the number of something not in use. -/
theorem cmdD_inactive {k : ℤ} (hs : Reachable s) (hargs : State.index args = some k)
    (hk : 0 ≤ k ∧ k < NR_WP + NR_BP) (hinactive : ¬ s.InUse k.toNat) :
    s.cmdD (some args) = .error .panic ∨ s.cmdD (some args) = .error .dangling := by
  rw [State.cmdD, hargs]
  simp only
  by_cases hlt : k < NR_WP
  · rw [if_pos ⟨hk.1, hlt⟩]
    refine wpDelete_inactive hs.sound fun hin => hinactive (Or.inl ⟨?_, hin⟩)
    omega
  · rw [if_neg (by omega), if_pos (by omega)]
    exact Or.inl (bpDelete_panics hs.sound (by omega))

/-- **Deleting what is not in use is never harmless.** -/
theorem delete_inactive {k : ℤ} (hs : Reachable s) (hargs : State.index args = some k)
    (hk : 0 ≤ k ∧ k < NR_WP + NR_BP) (hinactive : ¬ s.InUse k.toNat) :
    ¬ s.DeletesNothing args := by
  intro hok
  rcases cmdD_inactive hs hargs hk hinactive with h | h
  · exact absurd (h.symm.trans hok) (by simp)
  · exact absurd (h.symm.trans hok) (by simp)

/-- At the start nothing is in use. -/
theorem start_unused (i : ℕ) : ¬ State.start.InUse i := by
  rintro (⟨-, l, hl, hi⟩ | ⟨-, l, hl, hi⟩)
  · obtain rfl := LinkedList.Chain.eq_nil (hl : LinkedList.Chain State.start.wp.links none l)
    cases hi
  · obtain rfl := LinkedList.Chain.eq_nil (hl : LinkedList.Chain State.start.bp.links none l)
    cases hi

/-- `d 3` at the start. -/
theorem delete_inactive_start : ¬ State.start.DeletesNothing ['3'] :=
  delete_inactive (k := 3) .start (by decide) (by decide) (start_unused 3)

/-- At the start, `d 0` ends the debugger. -/
theorem firstDelete_panics : State.start.cmdD (some ['0']) = .error .panic ∧
    ¬ ∀ s, Reachable s → ∀ args k, State.index args = some k → 0 ≤ k → k < NR_WP + NR_BP →
      ¬ s.InUse k.toNat → s.DeletesNothing args := by
  have hpanic : State.start.cmdD (some ['0']) = .error .panic := by rfl
  refine ⟨hpanic, fun hall => ?_⟩
  have hok := hall _ .start ['0'] 0 (by decide) (by decide) (by decide) (start_unused 0)
  exact absurd (hpanic.symm.trans hok) (by simp)

end Sdb

end Bailuwan
