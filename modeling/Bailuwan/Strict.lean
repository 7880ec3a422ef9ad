/-
# Strict evaluation

The states of a machine of some size are terms that grow with every step, because
nothing asks for their components until the end.  A type with a `Strict` instance can
hand a value on in normal form, so that a run from a concrete state is evaluated one
step after the other.

What is evaluated is the iterate of the step function (`after_eq`).
-/
import Mathlib.Data.BitVec
import Mathlib.Data.List.Basic
import Mathlib.Logic.Function.Iterate

namespace Synchronous

/-- Values that can be brought into normal form before they are used. -/
class Strict (β : Type) where
  force : {α : Type} → β → (β → α) → α
  force_eq : ∀ {α : Type} (x : β) (k : β → α), force x k = k x

open Strict (force force_eq)

attribute [simp] Strict.force_eq

/-! ## Instances -/

/-- The case split makes the kernel compute the number. -/
def forceNat {α : Type} (n : ℕ) (k : ℕ → α) : α :=
  match n with
  | 0 => k 0
  | m + 1 => k (m + 1)

/-- A number that is forced is the number. -/
@[simp] theorem forceNat_eq {α : Type} (n : ℕ) (k : ℕ → α) : forceNat n k = k n := by
  cases n <;> rfl

instance : Strict ℕ := ⟨forceNat, forceNat_eq⟩

instance : Strict Bool where
  force b k := match b with
    | true => k true
    | false => k false
  force_eq b k := by cases b <;> rfl

instance {w : ℕ} : Strict (BitVec w) where
  force x k := forceNat x.toNat fun n => k (BitVec.ofNat w n)
  force_eq x k := by rw [forceNat_eq, BitVec.ofNat_toNat, BitVec.setWidth_eq]

instance {n : ℕ} [NeZero n] : Strict (Fin n) where
  force x k := forceNat x.val fun m => k (Fin.ofNat n m)
  force_eq x k := by rw [forceNat_eq, Fin.ofNat_val_eq_self]

instance {β γ : Type} [Strict β] [Strict γ] : Strict (β × γ) where
  force x k := force x.1 fun a => force x.2 fun b => k (a, b)
  force_eq x k := by simp

instance {β : Type} [Strict β] : Strict (Option β) where
  force o k := match o with
    | none => k none
    | some x => force x fun y => k (some y)
  force_eq o k := by cases o <;> simp

/-- Every element of the list is evaluated. -/
def forceList {β α : Type} [Strict β] : List β → (List β → α) → α
  | [], k => k []
  | x :: l, k => force x fun y => forceList l fun m => k (y :: m)

/-- A list that is forced is the list. -/
theorem forceList_eq {β α : Type} [Strict β] (l : List β) (k : List β → α) :
    forceList l k = k l := by
  induction l generalizing k with
  | nil => rfl
  | cons x l ih => simp [forceList, ih]

instance {β : Type} [Strict β] : Strict (List β) := ⟨forceList, forceList_eq⟩

/-- A value of an enumeration is found in the list of all values. -/
def forceEnum {β α : Type} [DecidableEq β] : List β → β → (β → α) → α
  | [], x, k => k x
  | c :: l, x, k => if x = c then k c else forceEnum l x k

/-- A listed value that is forced is the value. -/
theorem forceEnum_eq {β α : Type} [DecidableEq β] (l : List β) (x : β) (k : β → α) :
    forceEnum l x k = k x := by
  induction l with
  | nil => rfl
  | cons c l ih =>
      rw [forceEnum, ih]
      split_ifs with h
      · rw [h]
      · rfl

/-- The table of a function of `w` bits. -/
def tableOf {w : ℕ} {β : Type} (f : BitVec w → β) : List β :=
  (List.range (2 ^ w)).map fun i => f (BitVec.ofNat w i)

/-- The function that a table is of. -/
def ofTable {w : ℕ} {β : Type} (d : β) (l : List β) (x : BitVec w) : β := l.getD x.toNat d

/-- A table has the values of its function. -/
theorem ofTable_tableOf {w : ℕ} {β : Type} (d : β) (f : BitVec w → β) :
    ofTable d (tableOf f) = f := by
  funext x
  simp [ofTable, tableOf, List.getD, x.isLt]

/-- A storage array is forced through its table. -/
instance {w : ℕ} {β : Type} [Strict β] : Strict (BitVec w → β) where
  force f k := force (tableOf f) fun l => k (ofTable (f 0) l)
  force_eq f k := by rw [force_eq, ofTable_tableOf]

/-! ## Iteration -/

section Iterate

variable {β α : Type} [Strict β] (step : β → β)

/-- `k` at the state after `n` steps. -/
def after (k : β → α) : ℕ → β → α
  | 0, s => k s
  | n + 1, s => force (step s) (after k n)

/-- Steps that are forced are the steps. -/
theorem after_eq (k : β → α) (n : ℕ) (s : β) : after step k n s = k (step^[n] s) := by
  induction n generalizing s with
  | zero => rfl
  | succ n ih => rw [after, force_eq, ih, Function.iterate_succ_apply]

end Iterate

end Synchronous
