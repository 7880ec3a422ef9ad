/-
# Loads and stores on byte lanes

The load and store unit moves data on the lanes of a 32-bit bus.  For naturally aligned
addresses the value it selects from the word around the address is the one the
reference model reads, and the beat it drives changes the bytes the reference model
writes.
-/
import Mathlib.Tactic.IntervalCases
import Bailuwan.LSU
import Bailuwan.Nemu

namespace Bailuwan

/-! ## Lanes of a word -/

/-- The byte of a word that an address names. -/
theorem toNat_byteOffset (a : Word) : (LSU.byteOffset a).toNat = a.toNat % 4 := by
  simp only [LSU.byteOffset, toNat_field]
  omega

/-- An address is its word address and its lane. -/
theorem wordAlign_add_lane (a : Word) : wordAlign a + BitVec.ofNat 32 (a.toNat % 4) = a := by
  apply BitVec.eq_of_toNat_eq
  have ha := a.isLt
  rw [BitVec.toNat_add, toNat_wordAlign, BitVec.toNat_ofNat]
  omega

/-- An aligned address is the one of its word. -/
theorem wordAlign_of_aligned {a : Word} (h : a.toNat % 4 = 0) : wordAlign a = a := by
  apply BitVec.eq_of_toNat_eq
  rw [toNat_wordAlign]
  omega

/-- The bytes of a word. -/
theorem byteOf_wordAt (b : Bytes) (a : Word) {k : ℕ} (hk : k < 4) :
    byteOf (wordAt b a) k = b (a + BitVec.ofNat 32 k) := by
  apply BitVec.eq_of_getLsbD_eq
  intro j hj
  simp only [byteOf, wordAt, BitVec.getLsbD_extractLsb', BitVec.getLsbD_append]
  interval_cases k <;> interval_cases j <;> simp

/-- The words of a memory given by its words. -/
theorem wordAt_ofWords (f : Word → Word) {a : Word} (ha : a.toNat % 4 = 0) :
    wordAt (ofWords f) a = f a := by
  have hlane : ∀ k : ℕ, k < 4 → ofWords f (a + BitVec.ofNat 32 k) = byteOf (f a) k := by
    intro k hk
    have hlt := a.isLt
    have hmod : (a + BitVec.ofNat 32 k).toNat % 4 = k := by
      rw [BitVec.toNat_add, BitVec.toNat_ofNat]
      omega
    have hword : wordAlign (a + BitVec.ofNat 32 k) = a := by
      apply BitVec.eq_of_toNat_eq
      rw [toNat_wordAlign, BitVec.toNat_add, BitVec.toNat_ofNat]
      omega
    rw [ofWords, hmod, hword]
  have h0 : ofWords f a = byteOf (f a) 0 := by simpa using hlane 0 (by decide)
  have h1 : ofWords f (a + 1) = byteOf (f a) 1 := hlane 1 (by decide)
  have h2 : ofWords f (a + 2) = byteOf (f a) 2 := hlane 2 (by decide)
  have h3 : ofWords f (a + 3) = byteOf (f a) 3 := hlane 3 (by decide)
  apply BitVec.eq_of_getLsbD_eq
  intro j hj
  simp only [wordAt, h0, h1, h2, h3, byteOf, BitVec.getLsbD_append, BitVec.getLsbD_extractLsb']
  interval_cases j <;> simp

/-! ## Loads -/

/-- `lb` selects the byte of the address. -/
theorem lbSel_alignedWord (b : Bytes) (a : Word) : LSU.lbSel a (alignedWord b a) = b a := by
  have hsel : LSU.lbSel a (alignedWord b a) = byteOf (alignedWord b a) (a.toNat % 4) := by
    have hlt := Nat.mod_lt a.toNat (show 0 < 4 by decide)
    rw [LSU.lbSel, toNat_byteOffset, byteOf]
    generalize a.toNat % 4 = k at hlt
    interval_cases k <;> rfl
  rw [hsel, alignedWord, byteOf_wordAt b _ (Nat.mod_lt _ (by decide)), wordAlign_add_lane]

/-- `lh` selects the halfword of the address. -/
theorem lhSel_alignedWord (b : Bytes) {a : Word} (h : a.toNat % 2 = 0) :
    LSU.lhSel a (alignedWord b a) = b (a + 1) ++ b a := by
  have hsel : LSU.lhSel a (alignedWord b a) =
      byteOf (alignedWord b a) (a.toNat % 4 + 1) ++ byteOf (alignedWord b a) (a.toNat % 4) := by
    have hk : a.toNat % 4 = 0 ∨ a.toNat % 4 = 2 := by omega
    rw [LSU.lhSel, toNat_byteOffset]
    apply BitVec.eq_of_getLsbD_eq
    intro j hj
    rcases hk with hk | hk <;> rw [hk] <;>
      simp only [byteOf, BitVec.getLsbD_append, BitVec.getLsbD_extractLsb'] <;>
      interval_cases j <;> simp
  rw [hsel, alignedWord, byteOf_wordAt b _ (by omega), byteOf_wordAt b _ (by omega),
    wordAlign_add_lane, BitVec.ofNat_add, ← BitVec.add_assoc, wordAlign_add_lane]
  rfl

/-- The word at an aligned address. -/
theorem alignedWord_of_aligned (b : Bytes) {a : Word} (h : a.toNat % 4 = 0) :
    alignedWord b a = wordAt b a := by
  rw [alignedWord, wordAlign_of_aligned h]

/-! ## Stores -/

/-- The beat that carries the low `len` bytes of `data` to `addr`. -/
def storeBeat (addr : Word) (len : ℕ) (data : Word) : WriteDataChannel where
  data := data <<< (8 * (addr.toNat % 4))
  strb := BitVec.ofNat 4 (2 ^ len - 1) <<< (addr.toNat % 4)
  last := true

/-- The bytes a beat enables are those of the access. -/
theorem storeBeat_strb {addr : Word} {len : ℕ} {k : ℕ}
    (hk : k < 4) : (storeBeat addr len data).strb.getLsbD k =
      decide (addr.toNat % 4 ≤ k ∧ k < addr.toNat % 4 + len) := by
  simp only [storeBeat, BitVec.getLsbD_shiftLeft, BitVec.getLsbD_ofNat,
    Nat.testBit_two_pow_sub_one]
  generalize addr.toNat % 4 = n
  by_cases h1 : k < n
  · simp [h1]
  · have h2 : (k - n < len) ↔ k < n + len := by omega
    have h3 : k - n < 4 := by omega
    have h4 : n ≤ k := by omega
    simp [h1, h2, h3, h4, hk]

/-- A store puts its bytes into the lanes of the address. -/
theorem byteOf_storeBeat {addr : Word} {j : ℕ} (hj : j + addr.toNat % 4 < 4) :
    byteOf (storeBeat addr len data).data (j + addr.toNat % 4) = byteOf data j := by
  apply BitVec.eq_of_getLsbD_eq
  intro i hi
  simp only [byteOf, storeBeat, BitVec.getLsbD_extractLsb', BitVec.getLsbD_shiftLeft]
  generalize addr.toNat % 4 = n at hj
  have h1 : ¬ 8 * (j + n) + i < 8 * n := by omega
  have h2 : 8 * (j + n) + i - 8 * n = 8 * j + i := by omega
  have h3 : 8 * (j + n) + i < 32 := by omega
  simp [h1, h2, h3]

/-- The lane of an address, from the start of the access. -/
theorem lane_eq (addr x : Word) (w : WriteDataChannel) :
    StoredBeat.lane (addr, w) x = ((x - addr).toNat + addr.toNat % 4) % 2 ^ 32 := by
  have hx := x.isLt
  have ha := addr.isLt
  simp only [StoredBeat.lane, BitVec.toNat_sub, toNat_wordAlign]
  omega

/-- **A beat stores the bytes of the access.** -/
theorem storeBeat_writes (b : Bytes) {addr : Word} {len : ℕ} (data : Word)
    (hfit : addr.toNat % 4 + len ≤ 4) :
    (fun x => if StoredBeat.covers (addr, storeBeat addr len data) x then
        byteOf (storeBeat addr len data).data
          (StoredBeat.lane (addr, storeBeat addr len data) x)
      else b x) = Nemu.write b addr len data := by
  funext x
  have hlane := lane_eq addr x (storeBeat addr len data)
  have hlt := (x - addr).isLt
  by_cases hin : (x - addr).toNat < len
  · have hl : StoredBeat.lane (addr, storeBeat addr len data) x =
        (x - addr).toNat + addr.toNat % 4 := by omega
    have hcov : StoredBeat.covers (addr, storeBeat addr len data) x = true := by
      rw [StoredBeat.covers, hl, storeBeat_strb (by omega)]
      simp only [Bool.and_eq_true, decide_eq_true_eq]
      omega
    rw [if_pos hcov, Nemu.write, if_pos hin, hl, byteOf_storeBeat (by omega)]
  · have hcov : StoredBeat.covers (addr, storeBeat addr len data) x = false := by
      by_contra hcov
      simp only [StoredBeat.covers, Bool.not_eq_false, Bool.and_eq_true,
        decide_eq_true_eq] at hcov
      rw [storeBeat_strb hcov.1, decide_eq_true_eq] at hcov
      omega
    rw [hcov, Nemu.write, if_neg hin]
    rfl

/-! ## Operations -/

/-- The number of bytes an operation accesses. -/
def LSUOp.len : LSUOp → Option ℕ
  | .nop => none
  | .lb | .lbu | .sb => some 1
  | .lh | .lhu | .sh => some 2
  | .lw | .sw => some 4

/-- The operation is a load. -/
def LSUOp.loads : LSUOp → Bool
  | .lb | .lh | .lw | .lbu | .lhu => true
  | _ => false

/-- The operation is a store. -/
def LSUOp.stores : LSUOp → Bool
  | .sb | .sh | .sw => true
  | _ => false

/-- An aligned access lies in one word. -/
theorem LSUOp.fits {op : LSUOp} {n : ℕ} (hn : op.len = some n) {a : Word}
    (ha : a.toNat % n = 0) : a.toNat % 4 + n ≤ 4 := by
  cases op <;> simp only [LSUOp.len, Option.some_inj, reduceCtorEq] at hn <;> subst hn <;> omega

/-- The write channel of a store carries its beat, if the access stays in its word. -/
theorem LSU.memOut_w {u : LSU} {x : Valid EXUOut} {n : ℕ} (hs : (LSU.reqOp x.bits).stores = true)
    (hn : (LSU.reqOp x.bits).len = some n) (hfit : x.bits.lsuAddr.toNat % 4 + n ≤ 4) :
    (u.memOut x).w.bits = storeBeat x.bits.lsuAddr n x.bits.lsuStoreData := by
  simp only [memOut, storeBeat, selectedStoreData, writeMask, toNat_byteOffset]
  cases hop : reqOp x.bits <;>
    simp only [hop, LSUOp.stores, LSUOp.len, Option.some_inj, Bool.false_eq_true] at hs hn <;>
    subst hn <;> simp
  have h0 : x.bits.lsuAddr.toNat % 4 = 0 := by omega
  exact ⟨by simp [h0], by simp [h0]⟩

end Bailuwan
