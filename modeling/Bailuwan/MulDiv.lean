/-
# Multiplication and division (`nemu/src/isa/riscv32/inst.c`)

The instructions of RV32M compute with C operators: products of 64 bits that are shifted and
cut off, and divisions that are only made where C defines them.  `rv32m` says what
`decode_exec` assigns for each of them, in terms of the numbers that the operands stand for.
-/
import Bailuwan.OneInstruction
import Mathlib.Algebra.Order.Ring.Abs

namespace Bailuwan

namespace Nemu

/-! ## The operators of C -/

/-- `x * y` on `int64_t`; none where it overflows. -/
def mulInt64 (x y : BitVec 64) : Option (BitVec 64) :=
  if -2 ^ 63 ≤ x.toInt * y.toInt ∧ x.toInt * y.toInt < 2 ^ 63 then some (x * y) else none

/-- `x / y` on `int32_t`; none for a zero divisor and where the quotient overflows. -/
def divInt32 (x y : Word) : Option Word :=
  if y = 0 ∨ x = BitVec.intMin 32 ∧ y = -1 then none else some (x.sdiv y)

/-- `x % y` on `int32_t`; none where `x / y` is not defined. -/
def remInt32 (x y : Word) : Option Word :=
  if y = 0 ∨ x = BitVec.intMin 32 ∧ y = -1 then none else some (x.srem y)

/-- `x / y` on `uint32_t` -/
def divUint32 (x y : Word) : Option Word := if y = 0 then none else some (x / y)

/-- `x % y` on `uint32_t` -/
def remUint32 (x y : Word) : Option Word := if y = 0 then none else some (x % y)

variable (src1 src2 : Word)

/-- `riscv_div` with its operator checked. -/
def checkedDiv : Option Word :=
  if src2 = 0 then some (-1)
  else if src1 = BitVec.intMin 32 ∧ src2 = -1 then some src1
  else divInt32 src1 src2

/-- `riscv_divu` with its operator checked. -/
def checkedDivu : Option Word := if src2 = 0 then some (-1) else divUint32 src1 src2

/-- `riscv_rem` with its operator checked. -/
def checkedRem : Option Word :=
  if src2 = 0 then some src1
  else if src1 = BitVec.intMin 32 ∧ src2 = -1 then some 0
  else remInt32 src1 src2

/-- `riscv_remu` with its operator checked. -/
def checkedRemu : Option Word := if src2 = 0 then some src1 else remUint32 src1 src2

/-! ## The statement -/

/-- An instruction with the pattern assigns `v` to `R(rd)` and goes on. -/
def Assigns (s : CPU) (pat : BitPat) (v : Word → Word → Word) : Prop :=
  pat.matches s.inst = true → decodeExec s = some
    { dnpc := s.pc + 4
      rd := some (s.inst.extractLsb' 7 5,
        v (s.gpr (s.inst.extractLsb' 15 5)) (s.gpr (s.inst.extractLsb' 20 5))) }

/-- A division with remainder; the remainder has the sign of the dividend. -/
structure Divides (a b q r : ℤ) : Prop where
  eq : a = q * b + r
  lt : |r| < |b|
  sign : r = 0 ∨ r.sign = a.sign

/-- **The semantics of RV32M**: products cut off or without their low half, divisions with
remainder, the table of the special cases, and no operator where C does not define it. -/
structure Rv32m (s : CPU) : Prop where
  mul : Assigns s MUL fun a b => BitVec.ofInt 32 (a.toInt * b.toInt)
  mulh : Assigns s MULH fun a b => BitVec.ofInt 32 (a.toInt * b.toInt / 2 ^ 32)
  mulhsu : Assigns s MULHSU fun a b => BitVec.ofInt 32 (a.toInt * b.toNat / 2 ^ 32)
  mulhu : Assigns s MULHU fun a b => BitVec.ofInt 32 (a.toNat * b.toNat / 2 ^ 32)
  div : Assigns s DIV riscvDiv
  divu : Assigns s DIVU riscvDivu
  rem : Assigns s REM riscvRem
  remu : Assigns s REMU riscvRemu
  defined : ∀ a b : Word, mulInt64 (a.signExtend 64) (b.signExtend 64) =
    some (a.signExtend 64 * b.signExtend 64) ∧
      checkedDiv a b = some (riscvDiv a b) ∧ checkedDivu a b = some (riscvDivu a b) ∧
        checkedRem a b = some (riscvRem a b) ∧ checkedRemu a b = some (riscvRemu a b)
  signed : ∀ a b : Word, b ≠ 0 → ¬ (a.toInt = -2 ^ 31 ∧ b.toInt = -1) →
    Divides a.toInt b.toInt (riscvDiv a b).toInt (riscvRem a b).toInt
  unsigned : ∀ a b : Word, b ≠ 0 →
    Divides a.toNat b.toNat (riscvDivu a b).toNat (riscvRemu a b).toNat
  byZero : ∀ a : Word, (riscvDiv a 0).toInt = -1 ∧ (riscvDivu a 0).toNat = 2 ^ 32 - 1 ∧
    riscvRem a 0 = a ∧ riscvRemu a 0 = a
  overflow : ∀ a b : Word, a.toInt = -2 ^ 31 → b.toInt = -1 →
    (riscvDiv a b).toInt = -2 ^ 31 ∧ riscvRem a b = 0

/-! ## Products -/

variable {a b : Word}

theorem toInt_bounds (a : Word) : -2 ^ 31 ≤ a.toInt ∧ a.toInt < 2 ^ 31 :=
  ⟨BitVec.le_toInt a, BitVec.toInt_lt⟩

/-- Products of signed numbers of 32 bits fit in 64 bits. -/
theorem mul_bounds (a b : Word) : -2 ^ 63 ≤ a.toInt * b.toInt ∧ a.toInt * b.toInt < 2 ^ 63 := by
  obtain ⟨ha, ha'⟩ := toInt_bounds a
  obtain ⟨hb, hb'⟩ := toInt_bounds b
  have habs : |a.toInt * b.toInt| ≤ 2 ^ 31 * 2 ^ 31 := by
    rw [abs_mul]
    exact mul_le_mul (abs_le.mpr ⟨ha, by omega⟩) (abs_le.mpr ⟨hb, by omega⟩) (abs_nonneg _)
      (by decide)
  rw [abs_le] at habs
  omega

/-- A word keeps its value with 64 bits. -/
theorem toInt_signExtend_64 (a : Word) : (a.signExtend 64).toInt = a.toInt :=
  BitVec.toInt_signExtend_of_le (by decide)

/-- A number of 64 bits cut off. -/
theorem setWidth_ofInt (x : ℤ) : (BitVec.ofInt 64 x).setWidth 32 = BitVec.ofInt 32 x := by
  apply BitVec.eq_of_toNat_eq
  rw [BitVec.toNat_setWidth, BitVec.toNat_ofInt, BitVec.toNat_ofInt]
  omega

/-- A product of 64 bits is the one of the values. -/
theorem mul_eq_ofInt (x y : BitVec 64) : x * y = BitVec.ofInt 64 (x.toInt * y.toInt) := by
  rw [BitVec.ofInt_mul, BitVec.ofInt_toInt, BitVec.ofInt_toInt]

/-- `mul` is the low half of the product. -/
theorem mul_eq (a b : Word) : (a.signExtend 64 * b.signExtend 64).setWidth 32 =
    BitVec.ofInt 32 (a.toInt * b.toInt) := by
  rw [mul_eq_ofInt, setWidth_ofInt, toInt_signExtend_64, toInt_signExtend_64]

/-- The signed product is shifted with its sign. -/
theorem mulh_eq (a b : Word) :
    ((a.signExtend 64 * b.signExtend 64).sshiftRight 32).setWidth 32 =
      BitVec.ofInt 32 (a.toInt * b.toInt / 2 ^ 32) := by
  have hprod : (a.signExtend 64 * b.signExtend 64).toInt = a.toInt * b.toInt := by
    obtain ⟨hlo, hhi⟩ := mul_bounds a b
    rw [mul_eq_ofInt, toInt_signExtend_64, toInt_signExtend_64]
    exact BitVec.toInt_ofInt_eq_self (by decide) (by omega) (by omega)
  have hshift : (a.signExtend 64 * b.signExtend 64).sshiftRight 32 =
      BitVec.ofInt 64 (a.toInt * b.toInt / 2 ^ 32) := by
    rw [← BitVec.ofInt_toInt (x := BitVec.sshiftRight _ 32), BitVec.toInt_sshiftRight, hprod,
      Int.shiftRight_eq_div_pow]
    rfl
  rw [hshift, setWidth_ofInt]

/-- The high half of a product of 64 bits, whether it is taken for signed or not. -/
theorem high_ofInt (x : ℤ) : ((BitVec.ofInt 64 x) >>> 32).setWidth 32 =
    BitVec.ofInt 32 (x / 2 ^ 32) := by
  apply BitVec.eq_of_toNat_eq
  rw [BitVec.toNat_setWidth, BitVec.toNat_ushiftRight, Nat.shiftRight_eq_div_pow,
    BitVec.toNat_ofInt, BitVec.toNat_ofInt]
  omega

theorem setWidth_64_eq (a : Word) : a.setWidth 64 = BitVec.ofInt 64 a.toNat := by
  rw [BitVec.ofInt_natCast, ← BitVec.ofNat_toNat]

/-- `mulhsu` is the high half of the product of a signed and an unsigned value. -/
theorem mulhsu_eq (a b : Word) : ((a.signExtend 64 * b.setWidth 64) >>> 32).setWidth 32 =
    BitVec.ofInt 32 (a.toInt * b.toNat / 2 ^ 32) := by
  rw [← high_ofInt, BitVec.ofInt_mul, setWidth_64_eq, ← toInt_signExtend_64, BitVec.ofInt_toInt]

/-- `mulhu` is the high half of the product of two unsigned values. -/
theorem mulhu_eq (a b : Word) : ((a.setWidth 64 * b.setWidth 64) >>> 32).setWidth 32 =
    BitVec.ofInt 32 (a.toNat * b.toNat / 2 ^ 32) := by
  rw [← high_ofInt, BitVec.ofInt_mul, setWidth_64_eq, setWidth_64_eq]

/-! ## Quotients -/

theorem toInt_eq_min_iff : a.toInt = -2 ^ 31 ↔ a = BitVec.intMin 32 := by
  rw [show (-2 ^ 31 : ℤ) = (BitVec.intMin 32).toInt from rfl, BitVec.toInt_inj]

theorem toInt_eq_neg_one_iff : a.toInt = -1 ↔ a = -1 := by
  rw [show (-1 : ℤ) = (-1 : Word).toInt from rfl, BitVec.toInt_inj]

/-- Truncating division with its remainder. -/
theorem divides_tdiv (x : ℤ) {y : ℤ} (hy : y ≠ 0) : Divides x y (x.tdiv y) (x.tmod y) where
  eq := (Int.tdiv_mul_add_tmod x y).symm
  lt := by
    rw [Int.abs_eq_natAbs, Int.abs_eq_natAbs, Int.natAbs_tmod]
    exact_mod_cast Nat.mod_lt _ (Int.natAbs_pos.mpr hy)
  sign := by
    by_cases h : y ∣ x
    · exact Or.inl (Int.tmod_eq_zero_of_dvd h)
    · right
      rw [Int.sign_tmod, if_neg h]

/-- A signed division divides, unless it overflows. -/
theorem signed_divides (hb : b ≠ 0) (h : ¬ (a.toInt = -2 ^ 31 ∧ b.toInt = -1)) :
    Divides a.toInt b.toInt (riscvDiv a b).toInt (riscvRem a b).toInt := by
  rw [toInt_eq_min_iff, toInt_eq_neg_one_iff] at h
  have hb' : b.toInt ≠ 0 := by
    intro h0
    exact hb (BitVec.toInt_inj.mp h0)
  rw [riscvDiv, riscvRem, if_neg hb, if_neg hb, if_neg h, if_neg h, BitVec.toInt_srem,
    BitVec.toInt_sdiv_of_ne_or_ne _ _ (not_and_or.mp h)]
  exact divides_tdiv a.toInt hb'

/-- An unsigned division divides. -/
theorem unsigned_divides (hb : b ≠ 0) :
    Divides a.toNat b.toNat (riscvDivu a b).toNat (riscvRemu a b).toNat := by
  have hb' : (b.toNat : ℤ) ≠ 0 := by
    intro h0
    exact hb (BitVec.eq_of_toNat_eq (by exact_mod_cast h0))
  rw [riscvDivu, riscvRemu, if_neg hb, if_neg hb, BitVec.toNat_udiv, BitVec.toNat_umod]
  exact divides_tdiv a.toNat hb'

/-! ## Execution -/

/-- The body of a pattern of type R that assigns to `R(rd)`. -/
theorem assigns_of_row {s : CPU} {pat : BitPat} {i : Inst} {v : Word → Word → Word}
    (hrow : (pat, i, InstType.R) ∈ instPats)
    (hbody : ∀ o : Operands, execBody s o i = some (setRd s o (v o.src1 o.src2))) :
    Assigns s pat v := by
  intro hm
  have hdecode : decode s.inst = (i, .R) := OneInst.decode_of_mem hrow hm
  have hrd : (BITS s.inst 11 7).setWidth 5 = s.inst.extractLsb' 7 5 :=
    setWidth_BITS s.inst 11 7 (by decide)
  have hrs1 : (BITS s.inst 19 15).setWidth 5 = s.inst.extractLsb' 15 5 :=
    setWidth_BITS s.inst 19 15 (by decide)
  have hrs2 : (BITS s.inst 24 20).setWidth 5 = s.inst.extractLsb' 20 5 :=
    setWidth_BITS s.inst 24 20 (by decide)
  rw [decodeExec, hdecode, hbody, setRd, decodeOperand, hrd, hrs1, hrs2]

/-- **NEMU executes RV32M.** -/
theorem rv32m (s : CPU) : Rv32m s where
  mul := assigns_of_row (i := .mul) (by decide) fun o => by rw [← mul_eq]; rfl
  mulh := assigns_of_row (i := .mulh) (by decide) fun o => by rw [← mulh_eq]; rfl
  mulhsu := assigns_of_row (i := .mulhsu) (by decide) fun o => by rw [← mulhsu_eq]; rfl
  mulhu := assigns_of_row (i := .mulhu) (by decide) fun o => by rw [← mulhu_eq]; rfl
  div := assigns_of_row (i := .div) (by decide) fun _ => rfl
  divu := assigns_of_row (i := .divu) (by decide) fun _ => rfl
  rem := assigns_of_row (i := .rem) (by decide) fun _ => rfl
  remu := assigns_of_row (i := .remu) (by decide) fun _ => rfl
  defined a b := by
    refine ⟨?_, ?_, ?_, ?_, ?_⟩
    · rw [mulInt64, toInt_signExtend_64, toInt_signExtend_64, if_pos (mul_bounds a b)]
    · unfold checkedDiv riscvDiv divInt32
      split_ifs <;> first | rfl | simp_all
    · unfold checkedDivu riscvDivu divUint32
      split_ifs <;> rfl
    · unfold checkedRem riscvRem remInt32
      split_ifs <;> first | rfl | simp_all
    · unfold checkedRemu riscvRemu remUint32
      split_ifs <;> rfl
  signed a b hb h := signed_divides hb h
  unsigned a b hb := unsigned_divides hb
  byZero a := by
    refine ⟨?_, ?_, ?_, ?_⟩
    · rw [riscvDiv, if_pos rfl]
      rfl
    · rw [riscvDivu, if_pos rfl]
      rfl
    · rw [riscvRem, if_pos rfl]
    · rw [riscvRemu, if_pos rfl]
  overflow a b ha hb := by
    rw [toInt_eq_min_iff] at ha
    rw [toInt_eq_neg_one_iff] at hb
    subst ha hb
    exact ⟨rfl, rfl⟩

end Nemu

end Bailuwan
