/-
# Block addresses

How the instruction cache cuts an address into tag, index and word offset, and the
arithmetic that puts the parts together again: the words of a block are the beats
of the burst that starts at the aligned address.
-/
import Mathlib.Data.Nat.Bitwise
import Mathlib.Tactic.Ring
import Bailuwan.AXI4

namespace Bailuwan

open AXI4

/-- Bits 31..6 of an address: with `INDEX_BITS = 2` and `BLOCK_BITS = 4`. -/
def tagOf (addr : Word) : BitVec 26 := addr.extractLsb' 6 26

/-- Bits 5..4 of an address. -/
def indexOf (addr : Word) : BitVec 2 := addr.extractLsb' 4 2

/-- Bits 3..2 of an address. -/
def offsetOf (addr : Word) : BitVec 2 := addr.extractLsb' 2 2

/-- `block_align_mask`: clears the low `BLOCK_BITS` bits. -/
def blockAlignMask : Word := ~~~ (15 : Word)

/-- The address with its low two bits cleared. -/
def wordAlign (addr : Word) : Word := addr &&& ~~~ (3 : Word)

/-- The address of word `o` of the block with tag `t` and index `k`. -/
def wordAddr (t : BitVec 26) (k o : BitVec 2) : Word := t ++ k ++ o ++ (0 : BitVec 2)

/-! ## Arithmetic form -/

/-- A field of a word. -/
theorem toNat_field {w : ℕ} (x : BitVec w) (start len : ℕ) :
    (x.extractLsb' start len).toNat = x.toNat / 2 ^ start % 2 ^ len := by
  rw [BitVec.extractLsb'_toNat, Nat.shiftRight_eq_div_pow]

/-- A field in front of another. -/
theorem toNat_append_eq {m n : ℕ} (x : BitVec m) (y : BitVec n) :
    (x ++ y).toNat = x.toNat * 2 ^ n + y.toNat := by
  rw [BitVec.toNat_append, ← Nat.shiftLeft_add_eq_or_of_lt y.isLt, Nat.shiftLeft_eq]

/-- The tag is the number of the group of four lines. -/
theorem toNat_tagOf (a : Word) : (tagOf a).toNat = a.toNat / 64 := by
  have := a.isLt
  rw [tagOf, toNat_field]
  omega

/-- The index is the number of the line in its group. -/
theorem toNat_indexOf (a : Word) : (indexOf a).toNat = a.toNat / 16 % 4 := toNat_field a 4 2

/-- The offset is the number of the word in its line. -/
theorem toNat_offsetOf (a : Word) : (offsetOf a).toNat = a.toNat / 4 % 4 := toNat_field a 2 2

/-- A word of a line is where tag, index and offset say. -/
theorem toNat_wordAddr (t : BitVec 26) (k o : BitVec 2) :
    (wordAddr t k o).toNat = t.toNat * 64 + k.toNat * 16 + o.toNat * 4 := by
  rw [wordAddr, toNat_append_eq, toNat_append_eq, toNat_append_eq,
    show BitVec.toNat (0 : BitVec 2) = 0 from rfl]
  omega

/-- Clearing the low `n` bits rounds down to a multiple of `2 ^ n`. -/
theorem toNat_and_not_low {w : ℕ} (a : BitVec w) (n : ℕ) :
    (a &&& ~~~ BitVec.ofNat w (2 ^ n - 1)).toNat = a.toNat / 2 ^ n * 2 ^ n := by
  have h : a &&& ~~~ BitVec.ofNat w (2 ^ n - 1) = (a >>> n) <<< n := by
    ext i hi
    have hb : (BitVec.ofNat w (2 ^ n - 1))[i] = decide (i < n) := by
      rw [← BitVec.getLsbD_eq_getElem, BitVec.getLsbD_ofNat, Nat.testBit_two_pow_sub_one]
      simp [hi]
    by_cases hn : i < n
    · simp [hb, hn]
    · simp [hb, hn, BitVec.getLsbD_eq_getElem hi, show n + (i - n) = i by omega]
  rw [h, BitVec.toNat_shiftLeft, BitVec.toNat_ushiftRight, Nat.shiftLeft_eq,
    Nat.shiftRight_eq_div_pow]
  exact Nat.mod_eq_of_lt (lt_of_le_of_lt (Nat.div_mul_le_self _ _) a.isLt)

/-- Alignment rounds down to a word. -/
theorem toNat_wordAlign (a : Word) : (wordAlign a).toNat = a.toNat / 4 * 4 :=
  toNat_and_not_low a 2

/-- Alignment to a block rounds down to a line. -/
theorem toNat_blockAlign (a : Word) : (a &&& blockAlignMask).toNat = a.toNat / 16 * 16 :=
  toNat_and_not_low a 4

/-! ## Words and beats -/

/-- An address is the word address of its parts, up to the two low bits. -/
theorem wordAddr_parts (a : Word) :
    wordAddr (tagOf a) (indexOf a) (offsetOf a) = wordAlign a := by
  apply BitVec.eq_of_toNat_eq
  rw [toNat_wordAddr, toNat_tagOf, toNat_indexOf, toNat_offsetOf, toNat_wordAlign]
  omega

/-- Beat `k` of the incrementing burst of an aligned block is word `k` of the block. -/
theorem beatAddr_block (a : Word) (ar : ReadAddressChannel) (k : BitVec 2)
    (haddr : ar.addr = a &&& blockAlignMask) (hsize : ar.size = 2)
    (hburst : ar.burst = AXIBurstType.INCR) :
    beatAddr ar k.toNat = wordAddr (tagOf a) (indexOf a) k := by
  have hne : ¬ AXIBurstType.INCR = AXIBurstType.FIXED := by decide
  have hs : ar.size.toNat = 2 := by rw [hsize]; rfl
  have hk := k.isLt
  have ha := a.isLt
  rw [beatAddr, hburst, if_neg hne, haddr, hs]
  apply BitVec.eq_of_toNat_eq
  rw [BitVec.toNat_add, toNat_blockAlign, BitVec.toNat_ofNat, toNat_wordAddr, toNat_tagOf,
    toNat_indexOf]
  omega

end Bailuwan
