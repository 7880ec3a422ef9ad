/-
# Copying a block in place

`copied` is a memory in which the cells `lo`, ..., `hi - 1` of a block at `src` have been copied
to a block at `dst`, as they were at first.  The blocks may overlap.  The interval grows by a
cell at either end, if the cell that is read there has not been overwritten yet
(`update_copied_up`, `update_copied_down`).
-/
import Mathlib.Logic.Function.Basic
import Mathlib.Tactic.SplitIfs
import Mathlib.Data.Nat.Notation

namespace BlockCopy

variable {α : Type*}

/-- The memory after the copy of some cells of a block. -/
def copied (mem : ℕ → α) (dst src lo hi : ℕ) : ℕ → α := fun a =>
  if dst + lo ≤ a ∧ a < dst + hi then mem (src + (a - dst)) else mem a

variable (mem : ℕ → α) {dst src lo hi i a : ℕ}

@[simp] theorem copied_empty (k : ℕ) : copied mem dst src k k = mem := by
  funext a
  exact if_neg (by omega)

/-- What the copy holds. -/
theorem copied_apply (hlo : lo ≤ i) (hhi : i < hi) :
    copied mem dst src lo hi (dst + i) = mem (src + i) := by
  rw [copied, if_pos (by omega), Nat.add_sub_cancel_left]

/-- The frame of the copy. -/
theorem copied_frame (ha : ¬ (dst + lo ≤ a ∧ a < dst + hi)) :
    copied mem dst src lo hi a = mem a := if_neg ha

/-- A block that is copied to itself. -/
@[simp] theorem copied_self (lo hi : ℕ) : copied mem dst dst lo hi = mem := by
  funext a
  rw [copied]
  split_ifs with h
  · rw [Nat.add_sub_cancel' (by omega)]
  · rfl

/-- **The next cell is copied**, where it still is what it was. -/
theorem update_copied_up (hle : lo ≤ hi) (hunread : ¬ (dst + lo ≤ src + hi ∧ src + hi < dst + hi)) :
    Function.update (copied mem dst src lo hi) (dst + hi) (copied mem dst src lo hi (src + hi)) =
      copied mem dst src lo (hi + 1) := by
  rw [copied_frame mem hunread]
  funext a
  by_cases ha : a = dst + hi
  · rw [ha, Function.update_self, copied_apply mem hle (Nat.lt_succ_self hi)]
  · rw [Function.update_of_ne ha, copied, copied]
    exact if_congr (by omega) rfl rfl

/-- **The cell before is copied**, where it still is what it was. -/
theorem update_copied_down (hlt : lo < hi)
    (hunread : ¬ (dst + (lo + 1) ≤ src + lo ∧ src + lo < dst + hi)) :
    Function.update (copied mem dst src (lo + 1) hi) (dst + lo)
        (copied mem dst src (lo + 1) hi (src + lo)) =
      copied mem dst src lo hi := by
  rw [copied_frame mem hunread]
  funext a
  by_cases ha : a = dst + lo
  · rw [ha, Function.update_self, copied_apply mem (Nat.le_refl lo) hlt]
  · rw [Function.update_of_ne ha, copied, copied]
    exact if_congr (by omega) rfl rfl

end BlockCopy
