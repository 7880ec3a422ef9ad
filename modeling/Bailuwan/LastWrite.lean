/-
# The last write

A memory that is changed by writes.  A write gives the cells that it covers a new value and leaves
the others.  A cell holds what the last write that covers it has put there, or what was there at
first (`applyAll_apply`).
-/
import Mathlib.Data.List.Induction

namespace LastWrite

variable {α β W : Type*} (covers : W → α → Bool) (value : W → α → β)

/-- The memory after a write. -/
def apply (m : α → β) (w : W) : α → β := fun a => if covers w a then value w a else m a

/-- The memory after writes. -/
def applyAll (m : α → β) (ws : List W) : α → β := ws.foldl (apply covers value) m

variable {covers value} {m : α → β} {w : W} {ws : List W} {a : α}

/-- The last write is applied last. -/
theorem applyAll_concat (m : α → β) (ws : List W) (w : W) :
    applyAll covers value m (ws ++ [w]) = apply covers value (applyAll covers value m ws) w := by
  rw [applyAll, List.foldl_append]
  rfl

/-- **The last write to a cell decides.** -/
theorem applyAll_apply (m : α → β) (ws : List W) (a : α) : applyAll covers value m ws a =
    (ws.reverse.find? fun w => covers w a).elim (m a) fun w => value w a := by
  induction ws using List.reverseRecOn with
  | nil => rfl
  | append_singleton ws w ih =>
      rw [applyAll_concat, List.reverse_append, List.reverse_singleton, List.singleton_append,
        List.find?_cons, apply, ih]
      cases covers w a <;> rfl

/-- A cell that no write covers. -/
theorem applyAll_frame (h : ∀ w ∈ ws, covers w a = false) : applyAll covers value m ws a = m a := by
  have hnone : (ws.reverse.find? fun w => covers w a) = none := by
    rw [List.find?_eq_none]
    intro w hw
    exact Bool.eq_false_iff.mp (h w (List.mem_reverse.mp hw))
  rw [applyAll_apply, hnone, Option.elim_none]

/-- A cell that one write covers. -/
theorem applyAll_of_covers (hw : w ∈ ws) (hc : covers w a = true)
    (hone : ∀ u ∈ ws, covers u a = true → u = w) : applyAll covers value m ws a = value w a := by
  have hsome : (ws.reverse.find? fun u => covers u a).isSome = true :=
    List.find?_isSome.mpr ⟨w, List.mem_reverse.mpr hw, hc⟩
  obtain ⟨u, hu⟩ := Option.isSome_iff_exists.mp hsome
  have hmem : u ∈ ws := List.mem_reverse.mp (List.mem_of_find?_eq_some hu)
  have hcu : covers u a = true := by simpa using List.find?_some hu
  rw [applyAll_apply, hu, Option.elim_some, hone u hmem hcu]

end LastWrite
