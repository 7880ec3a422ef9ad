/-
# Copying bytes (`klib/src/string.c`)

`memmove` chooses the direction of its loop so that no byte is overwritten before it is read;
`memcpy` always counts up, which is right as long as the destination does not begin inside of
the source.  An object does not go around the end of the address space, so the address of a byte
is a natural number.
-/
import Bailuwan.BlockCopy

namespace Bailuwan

namespace Klib

/-- The bytes of the memory by their addresses. -/
abbrev Mem := ℕ → BitVec 8

/-- `d[i] = s[i]` -/
def copyByte (d s i : ℕ) (mem : Mem) : Mem := Function.update mem (d + i) (mem (s + i))

/-- `for (; i < n; i++) d[i] = s[i]`, of which `turns` turns are left. -/
def copyUp (d s : ℕ) : ℕ → ℕ → Mem → Mem
  | 0, _, mem => mem
  | turns + 1, i, mem => copyUp d s turns (i + 1) (copyByte d s i mem)

/-- `for (; i > 0; i--) d[i - 1] = s[i - 1]` -/
def copyDown (d s : ℕ) : ℕ → Mem → Mem
  | 0, mem => mem
  | i + 1, mem => copyDown d s i (copyByte d s i mem)

/-- `memmove`: the pointer it returns, and the memory. -/
def memmove (mem : Mem) (dst src n : ℕ) : ℕ × Mem :=
  if dst = src ∨ n = 0 then (dst, mem)
  else if dst < src then (dst, copyUp dst src n 0 mem)
  else (dst, copyDown dst src n mem)

/-- `memcpy` -/
def memcpy (mem : Mem) (out inp n : ℕ) : ℕ × Mem := (out, copyUp out inp n 0 mem)

/-- The bytes that are read and the bytes that are written have none in common. -/
def RangesDisjoint (dst src n : ℕ) : Prop := ∀ i < n, ∀ j < n, dst + i ≠ src + j

variable (mem : Mem) {d s n i : ℕ}

/-! ## The loops -/

/-- Counting up, the bytes that are still to be read lie behind those that have been written. -/
theorem copyUp_eq (h : d ≤ s ∨ RangesDisjoint d s n) (turns i : ℕ) (hn : i + turns = n) :
    copyUp d s turns i (BlockCopy.copied mem d s 0 i) = BlockCopy.copied mem d s 0 n := by
  induction turns generalizing i with
  | zero =>
      rw [← hn]
      rfl
  | succ turns ih =>
      have hunread : ¬ (d + 0 ≤ s + i ∧ s + i < d + i) := by
        rintro ⟨hlo, hhi⟩
        rcases h with hle | hdisjoint
        · omega
        · exact hdisjoint (s + i - d) (by omega) i (by omega) (by omega)
      rw [copyUp, copyByte, BlockCopy.update_copied_up mem (Nat.zero_le i) hunread]
      exact ih (i + 1) (by omega)

/-- Counting down, they lie before them. -/
theorem copyDown_eq (h : s ≤ d) (hi : i ≤ n) :
    copyDown d s i (BlockCopy.copied mem d s i n) = BlockCopy.copied mem d s 0 n := by
  induction i with
  | zero => rfl
  | succ i ih =>
      rw [copyDown, copyByte, BlockCopy.update_copied_down mem hi (by omega)]
      exact ih (Nat.le_of_succ_le hi)

/-! ## The copies -/

/-- **`memmove` copies the block as it was**, whatever the overlap. -/
theorem memmove_eq (dst src n : ℕ) :
    memmove mem dst src n = (dst, BlockCopy.copied mem dst src 0 n) := by
  rw [memmove]
  split_ifs with hnone hlt
  · rcases hnone with rfl | rfl
    · rw [BlockCopy.copied_self]
    · rw [BlockCopy.copied_empty]
  · have hup := copyUp_eq mem (n := n) (.inl (Nat.le_of_lt hlt)) n 0 (Nat.zero_add n)
    rw [BlockCopy.copied_empty] at hup
    rw [hup]
  · have hdown := copyDown_eq mem (n := n) (Nat.not_lt.mp hlt) (Nat.le_refl n)
    rw [BlockCopy.copied_empty] at hdown
    rw [hdown]

/-- `memcpy` does so where the destination does not begin inside of the source. -/
theorem memcpy_eq {dst src : ℕ} (h : dst ≤ src ∨ RangesDisjoint dst src n) :
    memcpy mem dst src n = (dst, BlockCopy.copied mem dst src 0 n) := by
  have hup := copyUp_eq mem h n 0 (Nat.zero_add n)
  rw [BlockCopy.copied_empty] at hup
  rw [memcpy, hup]

/-- **The blocks may overlap** in `memmove`: the destination gets the old bytes of the source, and
nothing else changes.  `memcpy` does the same if they do not, or if the destination comes first. -/
theorem memmove_moves (mem : Mem) (dst src n : ℕ) :
    (memmove mem dst src n).1 = dst ∧
    (∀ i < n, (memmove mem dst src n).2 (dst + i) = mem (src + i)) ∧
    (∀ a, ¬ (dst ≤ a ∧ a < dst + n) → (memmove mem dst src n).2 a = mem a) ∧
    (RangesDisjoint dst src n ∨ dst ≤ src → memcpy mem dst src n = memmove mem dst src n) := by
  rw [memmove_eq]
  refine ⟨rfl, ?_, ?_, ?_⟩
  · intro i hi
    exact BlockCopy.copied_apply mem (Nat.zero_le i) hi
  · intro a ha
    exact BlockCopy.copied_frame mem ha
  · intro h
    exact memcpy_eq mem h.symm

/-- Four bytes, moved up by one. -/
theorem memmove_moves_up : (memmove (BitVec.ofNat 8) 1 0 4).2 4 = 3 ∧
    (memmove (BitVec.ofNat 8) 1 0 4).2 5 = 5 ∧
    memcpy (BitVec.ofNat 8) 0 1 4 = memmove (BitVec.ofNat 8) 0 1 4 := by
  have hup := memmove_moves (BitVec.ofNat 8) 1 0 4
  have hdown := memmove_moves (BitVec.ofNat 8) 0 1 4
  exact ⟨hup.2.1 3 (by decide), hup.2.2.1 5 (by decide), hdown.2.2.2 (.inr (by decide))⟩

end Klib

end Bailuwan
