/-
# Direct-mapped caches

A direct-mapped cache holds in each line at most one block, and every block has one line it
can be in.  Which accesses of a sequence hit depends on the blocks in the lines only, so
that two caches agree on all of them when both keep to `Contents`
(`outputs_eq_hitList`).
-/
import Mathlib.Logic.Function.Basic

namespace DirectMapped

/-- The tag of the block in each line. -/
abbrev Contents (ι τ : Type*) := ι → Option τ

variable {ι τ : Type*} [DecidableEq ι] [DecidableEq τ]

namespace Contents

variable (m : Contents ι τ) (a : ι × τ)

/-- Nothing is in the cache. -/
def empty : Contents ι τ := fun _ => none

/-- An access hits if its line has its tag. -/
def hits : Bool := decide (m a.1 = some a.2)

/-- An access leaves its block in the line, whether it hits or misses. -/
def access : Contents ι τ := Function.update m a.1 (some a.2)

variable {m a}

/-- A hit changes nothing. -/
theorem access_of_hits (h : m.hits a = true) : m.access a = m := by
  rw [access, ← of_decide_eq_true h, Function.update_eq_self]

end Contents

/-! ## Sequences of accesses -/

/-- What comes out of a machine in a sequence of steps. -/
def outputs {σ α β : Type*} (out : σ → α → β) (step : σ → α → σ) : σ → List α → List β
  | _, [] => []
  | s, a :: l => out s a :: outputs out step (step s a) l

/-- The last output of a longer sequence. -/
theorem outputs_concat {σ α β : Type*} (out : σ → α → β) (step : σ → α → σ) (s : σ) (l : List α)
    (a : α) : outputs out step s (l ++ [a]) = outputs out step s l ++ [out (l.foldl step s) a] := by
  induction l generalizing s with
  | nil => rfl
  | cons b l ih =>
      rw [List.cons_append, outputs, outputs, ih]
      rfl

/-- The hits and misses of a sequence. -/
def hitList : Contents ι τ → List (ι × τ) → List Bool := outputs Contents.hits Contents.access

/-- The contents after a sequence. -/
def accessAll (m : Contents ι τ) (l : List (ι × τ)) : Contents ι τ := l.foldl Contents.access m

/-- One more access. -/
theorem hitList_concat (m : Contents ι τ) (l : List (ι × τ)) (a : ι × τ) :
    hitList m (l ++ [a]) = hitList m l ++ [(accessAll m l).hits a] :=
  outputs_concat Contents.hits Contents.access m l a

/-- **Simulation rule**: a machine whose states represent contents, and whose steps are
accesses, has the hits and misses of the sequence. -/
theorem outputs_eq_hitList {σ α : Type*} {key : α → ι × τ} {hit : σ → α → Bool}
    {step : σ → α → σ} {R : σ → Contents ι τ → Prop}
    (h : ∀ s m a, R s m → hit s a = m.hits (key a) ∧ R (step s a) (m.access (key a)))
    {s : σ} {m : Contents ι τ} (hR : R s m) (l : List α) :
    outputs hit step s l = hitList m (l.map key) := by
  induction l generalizing s m with
  | nil => rfl
  | cons a l ih =>
      obtain ⟨hhit, hnext⟩ := h s m a hR
      rw [outputs, hhit, ih hnext]
      rfl

end DirectMapped
