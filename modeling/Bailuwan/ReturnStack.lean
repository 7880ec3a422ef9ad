/-
# The return address stack as a bounded stack

`RAS(16)` by itself, under any cycles of pushes and pops.  The words pushed and not yet
popped are a history variable (`contents`), and `Holds` says how the registers hold them:
the word at depth `k` is in the cell `k`, and the pointer is the number of words modulo 16.

The pointer has four bits, which tell sixteen of the seventeen depths apart: the module is
a stack of its words at every depth but the full one, where it says that it is empty
(`shows_contents_iff`).
-/
import Bailuwan.BPU
import Bailuwan.Synchronous

namespace Bailuwan

open Synchronous

/-- The inputs of the stack in one cycle. -/
structure RASIn where
  push : Bool
  pushVal : Word
  pop : Bool
  deriving DecidableEq, Repr

namespace RAS

/-- The stack as a synchronous machine. -/
def machine : Machine RAS RASIn where
  init s := s.ptr = 0
  next s i := s.next i.push i.pushVal i.pop

/-- `entries` -/
def entries : ℕ := 16

/-! ## What the stack is for -/

/-- The words of a stack after a cycle, the latest first. -/
def stackNext (l : List Word) (i : RASIn) : List Word :=
  if i.push then i.pushVal :: l else if i.pop then l.tail else l

/-- The registers show the stack `l`. -/
structure IsStack (s : RAS) (l : List Word) : Prop where
  empty : s.empty = true ↔ l = []
  peek : ∀ v, l.head? = some v → s.peek = v

section Runs

variable (r : machine.Run)

/-- The words pushed before cycle `t` and not yet popped. -/
def contents : ℕ → List Word := r.watch [] fun l _ i => stackNext l i

/-- The cycles the stack is built for: no push together with a pop, no pop of an empty
stack, and never more words than entries. -/
structure Driven : Prop where
  oneAtATime : ∀ t, (r.inp t).push = true → (r.inp t).pop = false
  popsHeld : ∀ t, (r.inp t).pop = true → contents r t ≠ []
  bounded : ∀ t, (contents r t).length ≤ entries

end Runs

/-! ## How the registers hold a stack -/

/-- The word at depth `k` is in the cell `k`. -/
def Cells (stack : BitVec 4 → Word) : List Word → Prop
  | [] => True
  | v :: l => stack (BitVec.ofNat 4 l.length) = v ∧ Cells stack l

/-- The stack holds the addresses of a list, the top first. -/
structure Holds (s : RAS) (l : List Word) : Prop where
  ptr : s.ptr = BitVec.ofNat 4 l.length
  cells : Cells s.stack l

/-- Pointers of four bits count up. -/
theorem ofNat_add_one (n : ℕ) : BitVec.ofNat 4 n + 1 = BitVec.ofNat 4 (n + 1) := by
  rw [BitVec.ofNat_add]
  rfl

/-- Pointers of four bits count down. -/
theorem ofNat_succ_sub_one (n : ℕ) : BitVec.ofNat 4 (n + 1) - 1 = BitVec.ofNat 4 n := by
  rw [← ofNat_add_one, BitVec.add_sub_cancel]

/-- Different depths have different cells. -/
theorem ofNat_ne {k n : ℕ} (hk : k < n) (hn : n < entries) :
    BitVec.ofNat 4 k ≠ BitVec.ofNat 4 n := by
  intro heq
  have h := congrArg BitVec.toNat heq
  simp only [BitVec.toNat_ofNat, entries] at h hn
  omega

/-- The cells above a stack do not belong to it. -/
theorem Cells.update {stack : BitVec 4 → Word} {l : List Word} {n : ℕ} (h : Cells stack l)
    (hl : l.length ≤ n) (hn : n < entries) (v : Word) :
    Cells (Function.update stack (BitVec.ofNat 4 n) v) l := by
  induction l with
  | nil => trivial
  | cons w l ih =>
      rw [List.length_cons] at hl
      obtain ⟨hw, hrest⟩ := h
      refine ⟨?_, ih hrest (by omega)⟩
      rw [Function.update_of_ne (ofNat_ne (by omega) hn)]
      exact hw

/-- Without the first value the others are where they were. -/
theorem Cells.tail {stack : BitVec 4 → Word} {l : List Word} (h : Cells stack l) :
    Cells stack l.tail := by
  cases l with
  | nil => trivial
  | cons v l => exact h.2

namespace Holds

variable {s : RAS} {l : List Word}

/-- After reset the stack is empty. -/
theorem empty (h : s.ptr = 0) : Holds s [] := ⟨h, trivial⟩

/-- `push` puts a value on top. -/
theorem push (h : Holds s l) (hroom : l.length < entries) (v : Word) :
    Holds (s.next true v false) (v :: l) := by
  have hptr := h.ptr
  constructor
  · show s.ptr + 1 = BitVec.ofNat 4 (l.length + 1)
    rw [hptr, ofNat_add_one]
  · show Cells (Function.update s.stack s.ptr v) (v :: l)
    rw [hptr]
    exact ⟨Function.update_self .., h.cells.update le_rfl hroom v⟩

/-- `pop` takes the top value away. -/
theorem pop (h : Holds s l) (hne : l ≠ []) (v : Word) : Holds (s.next false v true) l.tail := by
  refine ⟨?_, h.cells.tail⟩
  show s.ptr - 1 = BitVec.ofNat 4 l.tail.length
  cases l with
  | nil => exact absurd rfl hne
  | cons w l => rw [h.ptr, List.length_cons, ofNat_succ_sub_one, List.tail_cons]

/-- Without push and pop nothing changes. -/
theorem keep (h : Holds s l) (v : Word) : Holds (s.next false v false) l := ⟨h.ptr, h.cells⟩

/-- One cycle that is not both a push and a pop. -/
theorem step (h : Holds s l) {i : RASIn} (hone : i.push = true → i.pop = false)
    (hpop : i.pop = true → l ≠ []) (hroom : (stackNext l i).length ≤ entries) :
    Holds (machine.next s i) (stackNext l i) := by
  show Holds (s.next i.push i.pushVal i.pop) (stackNext l i)
  cases hpush : i.push with
  | true =>
      rw [stackNext, if_pos hpush] at hroom ⊢
      rw [hone hpush]
      exact h.push hroom i.pushVal
  | false =>
      rw [stackNext, if_neg (by simp [hpush])]
      cases hp : i.pop with
      | true => exact h.pop (hpop hp) i.pushVal
      | false => exact h.keep i.pushVal

/-- The top word is seen at every depth, the full one included. -/
theorem peek (h : Holds s l) {v : Word} (hv : l.head? = some v) : s.peek = v := by
  obtain ⟨rest, rfl⟩ := List.head?_eq_some_iff.mp hv
  show s.stack (s.ptr - 1) = v
  rw [h.ptr, List.length_cons, ofNat_succ_sub_one]
  exact h.cells.1

/-- The pointer is back at the first cell when the stack is empty, and when it is full. -/
theorem empty_iff (h : Holds s l) (hle : l.length ≤ entries) :
    s.empty = true ↔ l.length = 0 ∨ l.length = entries := by
  have hptr : s.ptr.toNat = l.length % 16 := by rw [h.ptr, BitVec.toNat_ofNat]
  rw [RAS.empty, decide_eq_true_eq, ← BitVec.toNat_inj, hptr,
    show (0 : BitVec 4).toNat = 0 from rfl]
  simp only [entries] at hle ⊢
  omega

/-- A stack that is not full is one. -/
theorem isStack_iff (h : Holds s l) (hle : l.length ≤ entries) :
    IsStack s l ↔ l.length < entries := by
  have hempty := h.empty_iff hle
  constructor
  · intro hs
    by_contra hfull
    have heq : l.length = entries := by omega
    -- a full stack says that it is empty
    have hnil := hs.empty.mp (hempty.mpr (Or.inr heq))
    rw [hnil] at heq
    exact absurd heq (by decide)
  · intro hlt
    refine ⟨?_, fun v hv => h.peek hv⟩
    rw [hempty, List.eq_nil_iff_length_eq_zero]
    omega

end Holds

/-! ## Runs -/

section Runs

variable {r : machine.Run}

theorem contents_succ (t : ℕ) : contents r (t + 1) = stackNext (contents r t) (r.inp t) :=
  r.watch_succ ..

/-- A stack that is driven as it may be holds its contents. -/
theorem Driven.holds (h : Driven r) : ∀ t, Holds (r.st t) (contents r t) := by
  refine r.invariant (fun t s => Holds s (contents r t)) (fun s hs => Holds.empty hs) ?_
  intro t ht
  have hroom := h.bounded (t + 1)
  rw [contents_succ] at hroom ⊢
  exact ht.step (h.oneAtATime t) (h.popsHeld t) hroom

/-- A pop that the module's own `empty` admits is a pop of a stack that is not empty. -/
theorem Driven.of_empty (hone : ∀ t, (r.inp t).push = true → (r.inp t).pop = false)
    (hpop : ∀ t, (r.inp t).pop = true → (r.st t).empty = false)
    (hle : ∀ t, (contents r t).length ≤ entries) : Driven r := by
  suffices hall : ∀ t, Holds (r.st t) (contents r t) by
    refine ⟨hone, fun t hp hnil => ?_, hle⟩
    have hempty := ((hall t).empty_iff (hle t)).mpr (Or.inl (by rw [hnil]; rfl))
    rw [hpop t hp] at hempty
    exact absurd hempty (by decide)
  refine r.invariant (fun t s => Holds s (contents r t)) (fun s hs => Holds.empty hs) ?_
  intro t ht
  have hroom := hle (t + 1)
  rw [contents_succ] at hroom ⊢
  refine ht.step (hone t) (fun hp hnil => ?_) hroom
  have hempty := (ht.empty_iff (hle t)).mpr (Or.inl (by rw [hnil]; rfl))
  rw [hpop t hp] at hempty
  exact absurd hempty (by decide)

/-- **The module is a stack of sixteen words, but for the full one**: under the cycles it is
built for, the registers show the words pushed and not yet popped exactly at the depths
below sixteen. -/
theorem shows_contents_iff (h : Driven r) (t : ℕ) :
    IsStack (r.st t) (contents r t) ↔ (contents r t).length < entries :=
  (h.holds t).isStack_iff (h.bounded t)

end Runs

/-! ## A full stack -/

/-- A push in each of the first `n` cycles. -/
def pushes (n : ℕ) : machine.Run :=
  machine.run ⟨fun _ => 0, 0⟩ rfl fun t => ⟨decide (t < n), BitVec.ofNat 32 (t + 1), false⟩

/-- As many values are on the stack as have been pushed. -/
theorem length_contents_pushes (n t : ℕ) : (contents (pushes n) t).length = min t n := by
  induction t with
  | zero => rw [Nat.zero_min]; rfl
  | succ t ih =>
      rw [contents_succ, stackNext]
      show (if decide (t < n) = true then _ else if false = true then _ else _ : List Word).length = _
      by_cases ht : t < n
      · rw [if_pos (decide_eq_true ht), List.length_cons, ih]
        omega
      · rw [if_neg (by simpa using ht), if_neg (by decide), ih]
        omega

/-- Pushing up to the number of entries is allowed. -/
theorem driven_pushes {n : ℕ} (hn : n ≤ entries) : Driven (pushes n) where
  oneAtATime := fun _ _ => rfl
  popsHeld := fun _ h => Bool.noConfusion h
  bounded := fun t => by
    rw [length_contents_pushes]
    omega

/-- The stack of three values. -/
theorem shows_contents_three : Driven (pushes 3) ∧
    (IsStack ((pushes 3).st 3) (contents (pushes 3) 3) ↔
      (contents (pushes 3) 3).length < entries) :=
  ⟨driven_pushes (by decide), shows_contents_iff (driven_pushes (by decide)) 3⟩

/-- After sixteen pushes the module says that it is empty. -/
theorem full_not_shown :
    ¬ ∀ r : machine.Run, Driven r → ∀ t, IsStack (r.st t) (contents r t) := by
  intro h
  have hd : Driven (pushes 16) := driven_pushes le_rfl
  have hlen := length_contents_pushes 16 16
  have hempty : ((pushes 16).st 16).empty = true :=
    ((hd.holds 16).empty_iff (hd.bounded 16)).mpr (Or.inr hlen)
  have hnil := (h (pushes 16) hd 16).empty.mp hempty
  rw [hnil] at hlen
  exact absurd hlen (by decide)

end RAS

/-! ## How the predictor drives it -/

namespace BPU

variable (u : BPU) (pc : Word)

/-- The inputs of the stack. -/
def rasIn : RASIn := ⟨u.isCall pc, pc + 4, u.useRas pc⟩

/-- The stack of the predictor follows its inputs. -/
theorem next_ras (w : BTBWrite) : (u.next pc w).ras = RAS.machine.next u.ras (u.rasIn pc) := rfl

/-- A call is not a return. -/
theorem rasIn_oneAtATime (h : (u.rasIn pc).push = true) : (u.rasIn pc).pop = false := by
  have hcall : u.btype pc = .call := by
    simp only [rasIn, isCall, Bool.and_eq_true, decide_eq_true_eq] at h
    exact h.2
  simp [rasIn, useRas, isRet, hcall]

/-- The stack of the predictor is popped only when it holds something. -/
theorem rasIn_popsHeld (h : (u.rasIn pc).pop = true) : u.ras.empty = false := by
  simp only [rasIn, useRas, Bool.and_eq_true, Bool.not_eq_true'] at h
  exact h.2

end BPU

end Bailuwan
