/-
# Intrusive linked lists

Cells that are linked through a field of their own: `Chain next p l` says that following
`next` from `p` visits the cells of `l`, in order, and then ends.  The library is over any
type of cells and any map of links.

A chain is determined by where it starts (`Chain.unique`), so it visits no cell twice
(`Chain.nodup`), and only the links of its own cells matter (`Chain.congr`).  The operations
are those of an owner who moves cells between chains: `Chain.push`, `Chain.tail` and
`Chain.unlink`.
-/
import Mathlib.Data.List.Nodup
import Mathlib.Logic.Function.Basic

namespace LinkedList

variable {ι : Type*}

/-- Following `next` from `p` visits `l` and ends. -/
def Chain (next : ι → Option ι) : Option ι → List ι → Prop
  | p, [] => p = none
  | p, i :: l => p = some i ∧ Chain next (next i) l

variable {next next' : ι → Option ι} {p : Option ι} {i j : ι} {a b l l' : List ι}

namespace Chain

/-- What comes after the head is a list. -/
theorem tail (h : Chain next p (i :: l)) : Chain next (next i) l := h.2

/-- The head is where the list begins. -/
theorem eq_some (h : Chain next p (i :: l)) : p = some i := h.1

/-- A list that begins nowhere has no elements. -/
theorem eq_nil (h : Chain next none l) : l = [] := by
  cases l with
  | nil => rfl
  | cons i l => exact absurd h.1 (by simp)

/-- A chain from a cell begins with the cell. -/
theorem eq_cons (h : Chain next (some i) l) : ∃ t, l = i :: t ∧ Chain next (next i) t := by
  cases l with
  | nil => exact absurd h (by simp [Chain])
  | cons j t =>
      obtain ⟨heq, ht⟩ := h
      obtain rfl := Option.some_inj.mp heq
      exact ⟨t, rfl, ht⟩

/-- **A chain is determined by where it starts.** -/
theorem unique (h : Chain next p l) (h' : Chain next p l') : l = l' := by
  induction l generalizing p l' with
  | nil =>
      obtain rfl : p = none := h
      exact h'.eq_nil.symm
  | cons i l ih =>
      obtain ⟨rfl, ht⟩ := h
      obtain ⟨t, rfl, ht'⟩ := h'.eq_cons
      rw [ih ht ht']

/-- What follows a cell of a chain is a chain. -/
theorem suffix (h : Chain next p (a ++ i :: b)) : Chain next (next i) b := by
  induction a generalizing p with
  | nil => exact h.tail
  | cons j a ih => exact ih h.tail

/-- **A chain visits no cell twice.** -/
theorem nodup (h : Chain next p l) : l.Nodup := by
  induction l generalizing p with
  | nil => exact List.nodup_nil
  | cons i l ih =>
      refine List.nodup_cons.mpr ⟨fun hi => ?_, ih h.tail⟩
      -- what follows the second visit is what follows the first one
      obtain ⟨a, b, rfl⟩ := List.append_of_mem hi
      have heq : a ++ i :: b = b := h.tail.unique h.tail.suffix
      have hlen := congrArg List.length heq
      rw [List.length_append, List.length_cons] at hlen
      omega

/-- A list does not begin with what is not in it. -/
theorem ne_of_not_mem (h : Chain next p l) (hi : i ∉ l) : p ≠ some i := by
  rintro rfl
  obtain ⟨t, rfl, -⟩ := h.eq_cons
  exact hi (List.mem_cons_self ..)

/-- A cell behind another one is not where the chain starts. -/
theorem ne_of_behind (h : Chain next p (a ++ j :: i :: b)) : p ≠ some i := by
  rintro rfl
  have hnd := h.nodup
  obtain ⟨t, hcons, -⟩ := h.eq_cons
  cases a with
  | nil =>
      obtain ⟨rfl, -⟩ := List.cons.inj hcons
      exact (List.nodup_cons.mp hnd).1 (List.mem_cons_self ..)
  | cons c a =>
      obtain ⟨rfl, -⟩ := List.cons.inj hcons
      exact (List.nodup_cons.mp hnd).1 (by simp)

/-- Only the links of its own cells matter to a chain. -/
theorem congr (h : Chain next p l) (heq : ∀ i ∈ l, next' i = next i) : Chain next' p l := by
  induction l generalizing p with
  | nil => exact h
  | cons i l ih =>
      rw [List.forall_mem_cons] at heq
      refine ⟨h.1, ?_⟩
      rw [heq.1]
      exact ih h.tail heq.2

section Update

variable [DecidableEq ι]

/-- The links of other cells do not matter. -/
theorem update (h : Chain next p l) (hi : i ∉ l) (q : Option ι) :
    Chain (Function.update next i q) p l := by
  refine h.congr fun j hj => Function.update_of_ne ?_ ..
  rintro rfl
  exact hi hj

/-- A cell is put in front. -/
theorem push (h : Chain next p l) (hi : i ∉ l) :
    Chain (Function.update next i p) (some i) (i :: l) := by
  refine ⟨rfl, ?_⟩
  rw [Function.update_self]
  exact h.update hi p

/-- A cell is taken out from behind another one. -/
theorem unlink (h : Chain next p (a ++ j :: i :: b)) :
    Chain (Function.update next j (next i)) p (a ++ j :: b) := by
  have hnd := h.nodup
  have hb : Chain next (next i) b := by
    rw [show a ++ j :: i :: b = (a ++ [j]) ++ i :: b by simp] at h
    exact h.suffix
  induction a generalizing p with
  | nil =>
      refine ⟨h.1, ?_⟩
      rw [Function.update_self]
      rw [List.nil_append, List.nodup_cons] at hnd
      exact hb.update (fun hj => hnd.1 (List.mem_cons_of_mem i hj)) _
  | cons k a ih =>
      rw [List.cons_append, List.nodup_cons] at hnd
      have hk : k ≠ j := by
        rintro rfl
        exact hnd.1 (by simp)
      refine ⟨h.1, ?_⟩
      rw [Function.update_of_ne hk]
      exact ih h.tail hnd.2

end Update

end Chain

end LinkedList
