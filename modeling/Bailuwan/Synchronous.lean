/-
# Synchronous machines and their runs

The vocabulary in which clocked hardware is reasoned about, over arbitrary state
and input types: a machine is a set of reset states and a next-state function, a
run is an infinite sequence of states and inputs that follows it, and a history
variable (`Run.watch`) is a value computed from the run alongside it.

* `Run.invariant` is the induction rule;
* `LastAt p a t` says that `a` is the latest cycle up to `t` at which `p` held;
* `count p a t` is the number of cycles from `a` to `t` at which `p` held;
* `Transacts.since` reads the phase of a transaction off the counts of its events;
* `exists_first_at` is the progress rule: what is stable until an event meets
  the event;
* `Run.log_prefix` is forward simulation: a log whose every step is matched by
  the events of some number of reference steps stays a prefix of the reference.
-/
import Mathlib.Data.List.Basic
import Mathlib.Data.Nat.Find
import Mathlib.Order.Interval.Finset.Nat
import Mathlib.Logic.Function.Basic

namespace Synchronous

/-- A synchronous machine: its possible reset states and its next-state function. -/
structure Machine (σ ι : Type*) where
  init : σ → Prop
  next : σ → ι → σ

namespace Machine

variable {σ ι : Type*}

/-- A run: the state and the input of every cycle, the first state being a reset
state and each later one the next state of its predecessor. -/
structure Run (M : Machine σ ι) where
  st : ℕ → σ
  inp : ℕ → ι
  start : M.init (st 0)
  step : ∀ t, st (t + 1) = M.next (st t) (inp t)

/-- The states visited from `s₀` under an input stream. -/
def states (M : Machine σ ι) (s₀ : σ) (inp : ℕ → ι) : ℕ → σ
  | 0 => s₀
  | t + 1 => M.next (M.states s₀ inp t) (inp t)

/-- The run of an input stream. -/
def run (M : Machine σ ι) (s₀ : σ) (h₀ : M.init s₀) (inp : ℕ → ι) : M.Run where
  st := M.states s₀ inp
  inp := inp
  start := h₀
  step := fun _ => rfl

/-- The states of a machine and of an environment that computes each input from
both of them. -/
def closedStates {ε : Type*} (M : Machine σ ι) (s₀ : σ) (e₀ : ε) (drive : ε → σ → ι)
    (envNext : ε → σ → ι → ε) : ℕ → σ × ε
  | 0 => (s₀, e₀)
  | t + 1 =>
      let p := closedStates M s₀ e₀ drive envNext t
      (M.next p.1 (drive p.2 p.1), envNext p.2 p.1 (drive p.2 p.1))

/-- The run of a machine whose inputs are computed by an environment. -/
def closedRun {ε : Type*} (M : Machine σ ι) (s₀ : σ) (h₀ : M.init s₀) (e₀ : ε)
    (drive : ε → σ → ι) (envNext : ε → σ → ι → ε) : M.Run where
  st := fun t => (M.closedStates s₀ e₀ drive envNext t).1
  inp := fun t =>
    let p := M.closedStates s₀ e₀ drive envNext t
    drive p.2 p.1
  start := h₀
  step := fun _ => rfl

end Machine

namespace Machine.Run

variable {σ ι μ : Type*} {M : Machine σ ι} (r : M.Run)

/-- A history variable: a value updated in every cycle from the state and input. -/
def watch (m₀ : μ) (upd : μ → σ → ι → μ) : ℕ → μ
  | 0 => m₀
  | t + 1 => upd (watch m₀ upd t) (r.st t) (r.inp t)

@[simp] theorem watch_zero (m₀ : μ) (upd : μ → σ → ι → μ) : r.watch m₀ upd 0 = m₀ := rfl

/-- A monitor follows the cycles. -/
theorem watch_succ (m₀ : μ) (upd : μ → σ → ι → μ) (t : ℕ) :
    r.watch m₀ upd (t + 1) = upd (r.watch m₀ upd t) (r.st t) (r.inp t) := rfl

/-- **Invariant rule.**  What holds of every reset state and is kept by each step
of the run holds throughout the run. -/
theorem invariant (P : ℕ → σ → Prop) (h₀ : ∀ s, M.init s → P 0 s)
    (hstep : ∀ t, P t (r.st t) → P (t + 1) (M.next (r.st t) (r.inp t))) :
    ∀ t, P t (r.st t) := by
  intro t
  induction t with
  | zero => exact h₀ _ r.start
  | succ t ih =>
      rw [r.step t]
      exact hstep t ih

/-- The environment of a closed run is the history variable it computes. -/
theorem watch_closedRun {ε : Type*} (s₀ : σ) (h₀ : M.init s₀) (e₀ : ε) (drive : ε → σ → ι)
    (envNext : ε → σ → ι → ε) (t : ℕ) :
    (M.closedRun s₀ h₀ e₀ drive envNext).watch e₀ envNext t =
      (M.closedStates s₀ e₀ drive envNext t).2 := by
  induction t with
  | zero => rfl
  | succ t ih =>
      rw [watch_succ, ih]
      rfl

end Machine.Run

/-! ## The latest occurrence of an event -/

/-- `a` is the latest cycle up to `t` at which `p` holds. -/
def LastAt (p : ℕ → Prop) (a t : ℕ) : Prop :=
  a ≤ t ∧ p a ∧ ∀ u, a < u → u ≤ t → ¬ p u

/-- The last time is now if it happens now. -/
theorem LastAt.self {p : ℕ → Prop} {t : ℕ} (h : p t) : LastAt p t t :=
  ⟨le_rfl, h, fun u h1 h2 => absurd h1 (by omega)⟩

/-- The last time stays if it does not happen now. -/
theorem LastAt.succ {p : ℕ → Prop} {a t : ℕ} (h : LastAt p a t) (hn : ¬ p (t + 1)) :
    LastAt p a (t + 1) := by
  refine ⟨by have := h.1; omega, h.2.1, fun u h1 h2 => ?_⟩
  rcases Nat.lt_or_ge t u with hu | hu
  · rwa [show u = t + 1 by omega]
  · exact h.2.2 u h1 hu

/-- The last time was the same a cycle before if it does not happen now. -/
theorem LastAt.pred {p : ℕ → Prop} {a t : ℕ} (h : LastAt p a (t + 1)) (hn : ¬ p (t + 1)) :
    LastAt p a t := by
  have hne : a ≠ t + 1 := by
    rintro rfl
    exact hn h.2.1
  exact ⟨by have := h.1; omega, h.2.1, fun u h1 h2 => h.2.2 u h1 (by omega)⟩

/-- The last time is unique. -/
theorem LastAt.unique {p : ℕ → Prop} {a b t : ℕ} (ha : LastAt p a t) (hb : LastAt p b t) :
    a = b := by
  rcases lt_trichotomy a b with h | h | h
  · exact absurd hb.2.1 (ha.2.2 b h hb.1)
  · exact h
  · exact absurd ha.2.1 (hb.2.2 a h ha.1)

/-- What holds in the cycle after `a` and is kept from then on, as long as `p` does not hold
again. -/
@[elab_as_elim]
theorem LastAt.since {p motive : ℕ → Prop} {a t : ℕ} (h : LastAt p a t) (hno : ¬ p t)
    (start : ¬ p (a + 1) → motive (a + 1))
    (step : ∀ u, a < u → LastAt p a u → ¬ p u → ¬ p (u + 1) → motive u → motive (u + 1)) :
    motive t := by
  induction t with
  | zero =>
      have ha : a = 0 := Nat.le_zero.mp h.1
      subst ha
      exact absurd h.2.1 hno
  | succ t ih =>
      have hlast := h.pred hno
      by_cases hp : p t
      · have hat : a = t := LastAt.unique hlast (LastAt.self hp)
        subst hat
        exact start hno
      · have hat : a < t := by
          rcases hlast.1.lt_or_eq with hlt | rfl
          · exact hlt
          · exact absurd hlast.2.1 hp
        exact step t hat hlast hp hno (ih hlast hp)

/-! ## Counting events -/

/-- The number of cycles from `a` up to, but not including, `t` in which `p` holds. -/
def count (p : ℕ → Bool) (a t : ℕ) : ℕ := ((Finset.Ico a t).filter fun u => p u).card

@[simp] theorem count_self (p : ℕ → Bool) (a : ℕ) : count p a a = 0 := by simp [count]

/-- Every cycle counts itself. -/
theorem count_succ (p : ℕ → Bool) {a t : ℕ} (h : a ≤ t) :
    count p a (t + 1) = count p a t + (p t).toNat := by
  rw [count, count, Nat.Ico_succ_right_eq_insert_Ico h, Finset.filter_insert]
  cases p t <;> simp

/-- Nothing has happened if nothing had and nothing does. -/
theorem count_succ_eq_zero_iff (p : ℕ → Bool) {a t : ℕ} (h : a ≤ t) :
    count p a (t + 1) = 0 ↔ count p a t = 0 ∧ p t = false := by
  rw [count_succ p h, Nat.add_eq_zero_iff, Bool.toNat_eq_zero]

/-- A count is 0 if nothing has happened. -/
theorem count_eq_zero_iff (p : ℕ → Bool) (a t : ℕ) :
    count p a t = 0 ↔ ∀ u, a ≤ u → u < t → p u = false := by
  simp [count, Finset.filter_eq_empty_iff]

/-- Fewer events have a smaller count. -/
theorem count_le_count {p q : ℕ → Bool} (h : ∀ u, p u = true → q u = true) (a t : ℕ) :
    count p a t ≤ count q a t :=
  Finset.card_le_card (Finset.monotone_filter_right _ fun u _ => h u)

/-- Two events partition a third at every time if and only if they do in every cycle. -/
theorem count_add_count_iff (p q e : ℕ → Bool) :
    (∀ t, count p 0 t + count q 0 t = count e 0 t) ↔
      ∀ t, (p t).toNat + (q t).toNat = (e t).toNat := by
  constructor
  · intro h t
    have h0 := h t
    have h1 := h (t + 1)
    rw [count_succ p (Nat.zero_le t), count_succ q (Nat.zero_le t),
      count_succ e (Nat.zero_le t)] at h1
    omega
  · intro h t
    induction t with
    | zero => simp
    | succ t ih =>
        have ht := h t
        rw [count_succ p (Nat.zero_le t), count_succ q (Nat.zero_le t),
          count_succ e (Nat.zero_le t)]
        omega

/-- Two events are counted alike at every time if and only if they are one event. -/
theorem count_eq_count_iff (p q : ℕ → Bool) :
    (∀ t, count p 0 t = count q 0 t) ↔ ∀ t, p t = q t := by
  constructor
  · intro h t
    have h1 := h (t + 1)
    rw [count_succ p (Nat.zero_le t), count_succ q (Nat.zero_le t), h t] at h1
    have heq : (p t).toNat = (q t).toNat := Nat.add_left_cancel h1
    cases hp : p t <;> cases hq : q t <;> simp_all
  · intro h t
    rw [show p = q from funext h]

/-! ## Transactions -/

/-- The phases of a transaction that is started, ended and then answered. -/
inductive Phase
  | idle
  | running
  | ended
  deriving DecidableEq, Repr

/-- The phase after a cycle in which the events happen or do not. -/
def Phase.next (p : Phase) (start stop answer : Bool) : Phase :=
  match p with
  | .idle => if start then .running else .idle
  | .running => if stop then .ended else .running
  | .ended => if answer then .idle else .ended

/-- Phases that follow three events, each of which happens in one phase only. -/
structure Transacts (phase : ℕ → Phase) (start stop answer : ℕ → Bool) : Prop where
  step : ∀ t, phase (t + 1) = (phase t).next (start t) (stop t) (answer t)
  start_idle : ∀ t, start t = true → phase t = .idle
  stop_running : ∀ t, stop t = true → phase t = .running
  answer_ended : ∀ t, answer t = true → phase t = .ended

/-- The phase in `t` of the transaction started in `a`, by what has happened since. -/
structure PhaseSince (phase : ℕ → Phase) (start stop answer : ℕ → Bool) (a t : ℕ) : Prop where
  running : count stop (a + 1) t = 0 → phase t = .running ∧ count answer (a + 1) t = 0
  ended : count stop (a + 1) t ≠ 0 → count answer (a + 1) t = 0 → phase t = .ended
  done : count answer (a + 1) t ≠ 0 → (∀ u, a < u → u < t → ¬ start u = true) →
    phase t = .idle

namespace Transacts

variable {phase : ℕ → Phase} {start stop answer : ℕ → Bool} {a t : ℕ}

/-- A transaction that starts is going on. -/
theorem since_start (h : Transacts phase start stop answer) (ha : start a = true) :
    PhaseSince phase start stop answer a (a + 1) := by
  refine ⟨fun _ => ⟨?_, count_self ..⟩, fun hne => absurd (count_self ..) hne,
    fun hne => absurd (count_self ..) hne⟩
  rw [h.step a, h.start_idle a ha, ha]
  rfl

/-- It is in one of its phases until the next one starts. -/
theorem since_step (h : Transacts phase start stop answer) (hlt : a < t)
    (hp : PhaseSince phase start stop answer a t) :
    PhaseSince phase start stop answer a (t + 1) := by
  have hstops : count stop (a + 1) (t + 1) = 0 ↔ count stop (a + 1) t = 0 ∧ stop t = false :=
    count_succ_eq_zero_iff _ hlt
  have hanswers : count answer (a + 1) (t + 1) = 0 ↔
      count answer (a + 1) t = 0 ∧ answer t = false := count_succ_eq_zero_iff _ hlt
  have hstep := h.step t
  by_cases hs : count stop (a + 1) t = 0
  · -- running
    obtain ⟨hrun, hans⟩ := hp.running hs
    have hno : answer t = false := by
      by_contra hyes
      have hend := h.answer_ended t (by simpa using hyes)
      rw [hrun] at hend
      exact absurd hend (by decide)
    have hans' := hanswers.mpr ⟨hans, hno⟩
    rw [hrun] at hstep
    refine ⟨fun hs' => ⟨?_, hans'⟩, fun hs' _ => ?_, fun hne => absurd hans' hne⟩
    · rw [hstep, (hstops.mp hs').2]
      rfl
    · have hyes : stop t = true := by
        by_contra hno'
        exact hs' (hstops.mpr ⟨hs, by simpa using hno'⟩)
      rw [hstep, hyes]
      rfl
  · have hs' : count stop (a + 1) (t + 1) ≠ 0 := fun h0 => hs (hstops.mp h0).1
    by_cases hans : count answer (a + 1) t = 0
    · -- ended, and not answered before this cycle
      rw [hp.ended hs hans] at hstep
      refine ⟨fun h0 => absurd h0 hs', fun _ hans' => ?_, fun hans' _ => ?_⟩
      · rw [hstep, (hanswers.mp hans').2]
        rfl
      · have hyes : answer t = true := by
          by_contra hno
          exact hans' (hanswers.mpr ⟨hans, by simpa using hno⟩)
        rw [hstep, hyes]
        rfl
    · -- answered, and no other transaction started
      refine ⟨fun h0 => absurd h0 hs', fun _ h0 => absurd (hanswers.mp h0).1 hans,
        fun _ hquiet => ?_⟩
      have hidle := hp.done hans fun u h1 h2 => hquiet u h1 (by omega)
      have hno : start t = false := by simpa using hquiet t hlt (by omega)
      rw [hstep, hidle, hno]
      rfl

/-- **The phase of a transaction follows its events.** -/
theorem since (h : Transacts phase start stop answer) (ha : start a = true) :
    ∀ t, a < t → PhaseSince phase start stop answer a t := by
  intro t
  induction t with
  | zero => intro hlt; omega
  | succ t ih =>
      intro hlt
      rcases Nat.lt_or_ge a t with hat | hat
      · exact h.since_step hat (ih hat)
      · rw [show t = a by omega]
        exact h.since_start ha

/-- What is not idle has been started, and is still the latest that was. -/
theorem exists_start (h : Transacts phase start stop answer) (h0 : phase 0 = .idle) (t : ℕ)
    (ht : phase t ≠ .idle) :
    ∃ a < t, start a = true ∧ ∀ u, a < u → u < t → ¬ start u = true := by
  induction t with
  | zero => exact absurd h0 ht
  | succ t ih =>
      by_cases hs : start t = true
      · exact ⟨t, by omega, hs, fun u h1 h2 => by omega⟩
      · have hbusy : phase t ≠ .idle := by
          intro hidle
          rw [h.step t, hidle, Bool.eq_false_of_not_eq_true hs] at ht
          exact ht rfl
        obtain ⟨a, hlt, ha, hno⟩ := ih hbusy
        refine ⟨a, by omega, ha, fun u h1 h2 => ?_⟩
        rcases Nat.lt_or_ge u t with hu | hu
        · exact hno u h1 hu
        · rwa [show u = t by omega]

end Transacts

/-! ## Progress -/

/-- What holds at `t` and is stable while `e` has not happened still holds at the
first cycle from `t` on at which `e` happens. -/
theorem exists_first_at {p e : ℕ → Prop} {t : ℕ} (hp : p t)
    (hstable : ∀ u, t ≤ u → p u → ¬ e u → p (u + 1)) (hev : ∃ u, t ≤ u ∧ e u) :
    ∃ u, t ≤ u ∧ p u ∧ e u ∧ ∀ v, t ≤ v → v < u → ¬ e v := by
  classical
  have hspec := Nat.find_spec hev
  have hmin : ∀ v, t ≤ v → v < Nat.find hev → ¬ e v :=
    fun v h1 h2 h3 => Nat.find_min hev h2 ⟨h1, h3⟩
  have hkeep : ∀ k, t + k ≤ Nat.find hev → p (t + k) := by
    intro k
    induction k with
    | zero => intro _; exact hp
    | succ k ih =>
        intro hk
        exact hstable (t + k) (by omega) (ih (by omega)) (hmin _ (by omega) (by omega))
  refine ⟨Nat.find hev, hspec.1, ?_, hspec.2, hmin⟩
  have h := hkeep (Nat.find hev - t) (by have := hspec.1; omega)
  rwa [show t + (Nat.find hev - t) = Nat.find hev by have := hspec.1; omega] at h

/-! ## Logs and simulation -/

/-- The events of the first `n` steps of a reference whose `k`-th step emits `ev k`. -/
def refLog {β : Type*} (ev : ℕ → List β) (n : ℕ) : List β :=
  (List.range n).flatMap ev

@[simp] theorem refLog_zero {β : Type*} (ev : ℕ → List β) : refLog ev 0 = [] := rfl

/-- The reference log has the events of one instruction after the other. -/
theorem refLog_succ {β : Type*} (ev : ℕ → List β) (n : ℕ) :
    refLog ev (n + 1) = refLog ev n ++ ev n := by
  simp [refLog, List.range_succ]

namespace Machine.Run

variable {σ ι : Type*} {M : Machine σ ι} (r : M.Run)

/-- The log of the events emitted in the cycles before `t`. -/
def log {β : Type*} (emit : σ → ι → List β) : ℕ → List β
  | 0 => []
  | t + 1 => log emit t ++ emit (r.st t) (r.inp t)

@[simp] theorem log_zero {β : Type*} (emit : σ → ι → List β) : r.log emit 0 = [] := rfl

/-- The log has the events of one cycle after the other. -/
theorem log_succ {β : Type*} (emit : σ → ι → List β) (t : ℕ) :
    r.log emit (t + 1) = r.log emit t ++ emit (r.st t) (r.inp t) := rfl

/-- A log that at every cycle is a whole number of reference steps followed by a
part of the next one is a prefix of the reference. -/
theorem log_prefix {β : Type*} (emit : σ → ι → List β) (ev : ℕ → List β)
    (h : ∀ t, ∃ n part, part <+: ev n ∧ r.log emit t = refLog ev n ++ part) (t : ℕ) :
    ∃ n, r.log emit t <+: refLog ev n := by
  obtain ⟨n, part, hpart, heq⟩ := h t
  refine ⟨n + 1, ?_⟩
  rw [heq, refLog_succ]
  exact List.prefix_append_right_inj _ |>.mpr hpart

end Machine.Run

end Synchronous
