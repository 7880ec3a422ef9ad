/-
# What a machine comes to

A machine whose next state is a partial function.  `Leads next s Q` says that the machine, started
in `s`, comes to a state with `Q`; as the machine makes one step after the other, this is the total
correctness of what it runs.  There is a rule for each way in which code is put together: one
step, one piece after another, a loop that counts and a loop with a measure.
-/
import Mathlib.Computability.StateTransition

namespace StateTransition

variable {σ : Type*} (next : σ → Option σ)

/-- From `s` the machine comes to a state with `Q`. -/
def Leads (s : σ) (Q : σ → Prop) : Prop := ∃ t, Reaches next s t ∧ Q t

variable {next} {s t : σ} {P Q : σ → Prop}

namespace Leads

/-- What holds now is reached. -/
theorem done (h : Q s) : Leads next s Q := ⟨s, .refl, h⟩

/-- **One step.** -/
theorem step (hs : next s = some t) (h : Leads next t Q) : Leads next s Q := by
  obtain ⟨u, hu, hQ⟩ := h
  exact ⟨u, .head hs hu, hQ⟩

/-- What follows from what is reached is reached. -/
theorem mono (h : Leads next s P) (hPQ : ∀ t, P t → Q t) : Leads next s Q := by
  obtain ⟨t, ht, hP⟩ := h
  exact ⟨t, ht, hPQ t hP⟩

/-- **One piece after another.** -/
theorem bind (h : Leads next s P) (hPQ : ∀ t, P t → Leads next t Q) : Leads next s Q := by
  obtain ⟨t, ht, hP⟩ := h
  obtain ⟨u, hu, hQ⟩ := hPQ t hP
  exact ⟨u, ht.trans hu, hQ⟩

/-- **A loop that counts up** to `n`. -/
theorem count {I : ℕ → σ → Prop} {n : ℕ}
    (hbody : ∀ i < n, ∀ s, I i s → Leads next s (I (i + 1))) (h : I 0 s) :
    Leads next s (I n) := by
  induction n with
  | zero => exact done h
  | succ n ih =>
      refine bind (ih fun i hi => hbody i (Nat.lt_succ_of_lt hi)) ?_
      exact hbody n (Nat.lt_succ_self n)

/-- **A loop with a measure**: a turn comes to the end or makes the measure smaller. -/
theorem loop {I : ℕ → σ → Prop}
    (hbody : ∀ n s, I n s → Leads next s fun t => Q t ∨ ∃ m < n, I m t) {n : ℕ}
    (h : I n s) : Leads next s Q := by
  induction n using Nat.strong_induction_on generalizing s with
  | _ n ih =>
      refine bind (hbody n s h) fun t ht => ?_
      rcases ht with hQ | ⟨m, hm, hI⟩
      · exact done hQ
      · exact ih m hm hI

end Leads

/-! ## Simulation -/

variable {α : Type*}

/-- A run of `n` steps of a relation. -/
def Steps (Step : α → α → Prop) : ℕ → α → α → Prop
  | 0, a, b => a = b
  | n + 1, a, c => ∃ b, Steps Step n a b ∧ Step b c

/-- **Simulation**: a machine that comes from every related state to one that is related after a step
of the relation comes to one that is related after any number of steps. -/
theorem Leads.simulation {Step : α → α → Prop} {R : α → σ → Prop} {a : α} {n : ℕ} (h : R a s)
    (hstep : ∀ m < n, ∀ b, Steps Step m a b → ∀ s, R b s →
      Leads next s fun t => ∃ c, Step b c ∧ R c t) :
    Leads next s fun t => ∃ b, Steps Step n a b ∧ R b t := by
  refine count (I := fun m t => ∃ b, Steps Step m a b ∧ R b t) ?_ ⟨a, rfl, h⟩
  rintro m hm t ⟨b, hb, hR⟩
  refine (hstep m hm b hb t hR).mono ?_
  rintro u ⟨c, hc, hR⟩
  exact ⟨c, ⟨b, hb, hc⟩, hR⟩

end StateTransition
