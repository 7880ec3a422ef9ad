/-
# Integer arithmetic without the M extension (`libgcc/div.S`, `libgcc/muldi3.S`)

The routines that a compiler calls where the processor has no multiplication and division: shift
and add, and the restoring division, which doubles the divisor until it exceeds the dividend and
subtracts on the way back.  They are executed on the reference model, which has the M extension:
every routine returns what the instruction it stands for would have given, also for a divisor of
zero and for the one quotient that overflows (`divides`, `multiplies`).
-/
import Bailuwan.Assembly
import Bailuwan.MulDiv

open StateTransition

namespace Bailuwan

namespace Nemu

namespace Libgcc

open Asm

/-! ## Registers -/

def ra : BitVec 5 := 1
def t0 : BitVec 5 := 5
def a0 : BitVec 5 := 10
def a1 : BitVec 5 := 11
def a2 : BitVec 5 := 12
def a3 : BitVec 5 := 13

/-- What the routines work with. -/
structure Regs where
  ra : Word
  t0 : Word
  a0 : Word
  a1 : Word
  a2 : Word
  a3 : Word

/-- The state `s`, but for `pc` and the registers of the routines. -/
def regs (s : CPU) (pc : Word) (x : Regs) : CPU :=
  { s with
    pc := pc
    gpr := fun r =>
      if r = 0 then 0 else if r = ra then x.ra else if r = t0 then x.t0 else if r = a0 then x.a0
      else if r = a1 then x.a1 else if r = a2 then x.a2 else if r = a3 then x.a3 else s.gpr r }

section Regs

variable {s : CPU} {pc v : Word} {x : Regs}

@[simp] theorem gpr_zero : (regs s pc x).gpr 0#5 = 0 := rfl
@[simp] theorem mem_regs : (regs s pc x).mem = s.mem := rfl
@[simp] theorem pc_regs : (regs s pc x).pc = pc := rfl
@[simp] theorem gpr_ra : (regs s pc x).gpr ra = x.ra := rfl
@[simp] theorem gpr_t0 : (regs s pc x).gpr t0 = x.t0 := rfl
@[simp] theorem gpr_a0 : (regs s pc x).gpr a0 = x.a0 := rfl
@[simp] theorem gpr_a1 : (regs s pc x).gpr a1 = x.a1 := rfl
@[simp] theorem gpr_a2 : (regs s pc x).gpr a2 = x.a2 := rfl
@[simp] theorem gpr_a3 : (regs s pc x).gpr a3 = x.a3 := rfl

/-- An assignment changes one of the registers. -/
theorem regs_assign {r : BitVec 5} {y : Regs} (h : (regs s pc y).gpr r = v)
    (hrest : ∀ q, q ≠ r → (regs s pc y).gpr q = (regs s pc x).gpr q) :
    (regs s pc x).assign r v = regs s (pc + 4) y := by
  have hgpr : ((regs s pc x).assign r v).gpr = (regs s pc y).gpr := by
    funext q
    rw [CPU.gpr_assign]
    split_ifs with h0 hq
    · rw [h0]
      rfl
    · rw [hq, h]
    · rw [hrest q hq]
  change { regs s pc x with gpr := ((regs s pc x).assign r v).gpr, pc := pc + 4 } = _
  rw [hgpr]
  rfl

@[simp] theorem assign_ra : (regs s pc x).assign ra v = regs s (pc + 4#32) { x with ra := v } :=
  regs_assign rfl fun q hq => by simp [regs, hq]

@[simp] theorem assign_t0 : (regs s pc x).assign t0 v = regs s (pc + 4#32) { x with t0 := v } :=
  regs_assign rfl fun q hq => by simp [regs, hq]

@[simp] theorem assign_a0 : (regs s pc x).assign a0 v = regs s (pc + 4#32) { x with a0 := v } :=
  regs_assign rfl fun q hq => by simp [regs, hq]

@[simp] theorem assign_a1 : (regs s pc x).assign a1 v = regs s (pc + 4#32) { x with a1 := v } :=
  regs_assign rfl fun q hq => by simp [regs, hq]

@[simp] theorem assign_a2 : (regs s pc x).assign a2 v = regs s (pc + 4#32) { x with a2 := v } :=
  regs_assign rfl fun q hq => by simp [regs, hq]

@[simp] theorem assign_a3 : (regs s pc x).assign a3 v = regs s (pc + 4#32) { x with a3 := v } :=
  regs_assign rfl fun q hq => by simp [regs, hq]

theorem update_zero : Function.update (regs s pc x).gpr 0 0 = (regs s pc x).gpr :=
  Function.update_eq_self 0 _

/-- A jump changes the line only. -/
@[simp] theorem regs_goto (l : Word) : (regs s pc x).goto l = regs s l x := by
  rw [CPU.goto, update_zero]
  rfl

/-- A jump without a link changes the line only. -/
@[simp] theorem link_zero (l : Word) : (regs s pc x).link 0#5 l = regs s l x := by
  change (regs s pc x).link 0 l = _
  rw [CPU.link, Function.update_idem, update_zero]
  rfl

/-- A jump with a link leaves the return address in `ra`. -/
@[simp] theorem link_ra (l : Word) : (regs s pc x).link ra l = regs s l { x with ra := pc + 4#32 } :=
  congrArg (fun t : CPU => { t with pc := l }) (assign_ra (v := pc + 4))

/-- A routine has returned `v`. -/
def Result (s : CPU) (pc v : Word) (t : CPU) : Prop :=
  ∃ y, t = regs s (pc &&& ~~~1#32) y ∧ y.a0 = v

/-- The next instruction of a routine. -/
theorem regs_next {code : List Asm} (hcont : ∀ a ∈ code, a.Continues) {base : Word} {k : ℕ} {a : Asm}
    {Q : CPU → Prop} (hc : CodeAt s.mem base code) (ha : code[k]? = some a)
    (h : Leads CPU.step (a.exec (regs s (lineAt base k) x)) Q) :
    Leads CPU.step (regs s (lineAt base k) x) Q :=
  CodeAt.next hc rfl ha (hcont a (List.mem_of_getElem? ha)) h

end Regs

/-! ## `div.S`, for 32 bits -/

namespace Div

/-! ### Labels -/

def divdi3 : ℕ := 0
def udivdi3 : ℕ := 2
def L1 : ℕ := 8
def L2 : ℕ := 12
def L3 : ℕ := 13
def L4 : ℕ := 16
def L5 : ℕ := 19
def umoddi3 : ℕ := 20
def L10 : ℕ := 25
def L11 : ℕ := 29
def L12 : ℕ := 30
def moddi3 : ℕ := 35
def L30 : ℕ := 38
def L31 : ℕ := 42
def L32 : ℕ := 44

/-- The two instructions of `call`, to a place of the same file: the upper part of the distance
is zero. -/
def callHigh : Line := .inst (auipc ra 0)
def callLow (label : ℕ) : Line := .to (fun d => jalr ra (d + 4) ra) label

/-- The text of `div.S`. -/
def text : List Line := [
  -- __divdi3
  .to (bltz a0) L10,
  .to (bltz a1) L11,
  -- __udivdi3
  .inst (mv a2 a1),
  .inst (mv a1 a0),
  .inst (li a0 (-1)),
  .to (beqz a2) L5,
  .inst (li a3 1),
  .to (bgeu a2 a1) L2,
  -- .L1
  .to (blez a2) L2,
  .inst (slli a2 a2 1),
  .inst (slli a3 a3 1),
  .to (bltu a2 a1) L1,
  -- .L2
  .inst (li a0 0),
  -- .L3
  .to (bltu a1 a2) L4,
  .inst (Asm.sub a1 a1 a2),
  .inst (Asm.or a0 a0 a3),
  -- .L4
  .inst (srli a3 a3 1),
  .inst (srli a2 a2 1),
  .to (bnez a3) L3,
  -- .L5
  .inst (jr ra),
  -- __umoddi3
  .inst (mv t0 ra), callHigh, callLow udivdi3, .inst (mv a0 a1), .inst (jr t0),
  -- .L10
  .inst (neg a0 a0),
  .to (bgtz a1) L12,
  .inst (neg a1 a1),
  .to j udivdi3,
  -- .L11
  .inst (neg a1 a1),
  -- .L12
  .inst (mv t0 ra), callHigh, callLow udivdi3, .inst (neg a0 a0), .inst (jr t0),
  -- __moddi3
  .inst (mv t0 ra),
  .to (bltz a1) L31,
  .to (bltz a0) L32,
  -- .L30
  callHigh, callLow udivdi3, .inst (mv a0 a1), .inst (jr t0),
  -- .L31
  .inst (neg a1 a1),
  .to (bge a0 0) L30,
  -- .L32
  .inst (neg a0 a0), callHigh, callLow udivdi3, .inst (neg a0 a1), .inst (jr t0)]

/-- `div.S`, assembled. -/
def code : List Asm := assemble text

/-- Every instruction leads to another line. -/
theorem continues : ∀ a ∈ code, a.Continues := by
  decide +kernel

section Runs

variable {s : CPU} {base : Word} {x : Regs} {Q : CPU → Prop} {k : ℕ} {a : Asm}

/-- One line is executed. -/
theorem next (hc : CodeAt s.mem base code) (ha : code[k]? = some a)
    (h : Leads CPU.step (a.exec (regs s (lineAt base k) x)) Q) :
    Leads CPU.step (regs s (lineAt base k) x) Q :=
  regs_next continues hc ha h

/-! ### The unsigned division -/

/-- The divisor and the bit of the quotient that belongs to it, after `k` doublings. -/
structure Scaled (d : Word) (k : ℕ) (x2 x3 : Word) : Prop where
  divisor : x2.toNat = d.toNat * 2 ^ k
  bit : x3.toNat = 2 ^ k

namespace Scaled

variable {d x2 x3 : Word}

/-- Doubling the divisor goes one bit up. -/
theorem double (h : Scaled d k x2 x3) (hd : 0 < d.toNat) (hlt : x2.toNat < 2 ^ 31) :
    Scaled d (k + 1) (x2 <<< 1) (x3 <<< 1) := by
  obtain ⟨h2, h3⟩ := h
  have hle : 2 ^ k ≤ d.toNat * 2 ^ k := Nat.le_mul_of_pos_left _ hd
  constructor
  · rw [BitVec.toNat_shiftLeft, Nat.shiftLeft_eq, Nat.mod_eq_of_lt (by omega), h2, Nat.mul_assoc]
    rfl
  · rw [BitVec.toNat_shiftLeft, Nat.shiftLeft_eq, Nat.mod_eq_of_lt (by omega), h3]
    rfl

/-- Halving the divisor goes one bit down. -/
theorem half (h : Scaled d (k + 1) x2 x3) : Scaled d k (x2 >>> 1) (x3 >>> 1) := by
  obtain ⟨h2, h3⟩ := h
  rw [pow_succ, ← Nat.mul_assoc] at h2
  rw [pow_succ] at h3
  constructor
  · rw [BitVec.toNat_ushiftRight, Nat.shiftRight_eq_div_pow]
    omega
  · rw [BitVec.toNat_ushiftRight, Nat.shiftRight_eq_div_pow]
    omega

end Scaled

/-- `bgtz` branches where the value is positive. -/
theorem zero_slt_iff (y : Word) : (0#32).slt y = true ↔ 0 < y.toNat ∧ y.toNat < 2 ^ 31 := by
  have hy := y.isLt
  rw [BitVec.slt_iff_toInt_lt, BitVec.toInt_zero, BitVec.toInt_eq_toNat_cond]
  split_ifs <;> omega

/-- **The way up**: the divisor is doubled until it is no longer below the dividend, or until the
next doubling would overflow. -/
theorem leads_L2 (hc : CodeAt s.mem base code) {d : Word} (hd : 0 < d.toNat) {x2 x3 : Word}
    (h : Scaled d k x2 x3) :
    Leads CPU.step (regs s (lineAt base L1) { x with a2 := x2, a3 := x3 }) fun t =>
      ∃ k y2 y3, t = regs s (lineAt base L2) { x with a2 := y2, a3 := y3 } ∧ Scaled d k y2 y3 ∧
        x.a1.toNat < 2 * y2.toNat := by
  refine Leads.loop (I := fun m t => ∃ k y2 y3, m = 2 ^ 32 - y2.toNat ∧
    t = regs s (lineAt base L1) { x with a2 := y2, a3 := y3 } ∧ Scaled d k y2 y3) ?_
    ⟨k, x2, x3, rfl, rfl, h⟩
  rintro _ _ ⟨k, y2, y3, rfl, rfl, h⟩
  have hx := x.a1.isLt
  have hpos : 0 < y2.toNat := by
    rw [h.divisor]
    positivity
  refine next (a := blez a2 (offset L1 L2)) hc rfl ?_
  simp only [blez, exec_bge, BitVec.ofNat_eq_ofNat, gpr_zero, gpr_a2, pc_regs, regs_goto,
    Bool.not_eq_true', lineAt_add_offset, lineAt_add_four]
  by_cases hlt : y2.toNat < 2 ^ 31
  · rw [if_neg (by rw [Bool.not_eq_false, zero_slt_iff]; omega)]
    refine next (a := slli a2 a2 1) hc rfl ?_
    simp only [exec_slli, gpr_a2, assign_a2, lineAt_add_four]
    refine next (a := slli a3 a3 1) hc rfl ?_
    simp only [exec_slli, gpr_a3, assign_a3, lineAt_add_four]
    refine next (k := 11) (a := bltu a2 a1 (offset 11 L1)) hc rfl ?_
    simp only [exec_bltu, gpr_a2, gpr_a1, pc_regs, regs_goto, lineAt_add_offset, lineAt_add_four,
      BitVec.ofNat_eq_ofNat]
    have hdouble := h.double hd hlt
    rw [show shamt 1#32 = 1 from rfl]
    have hy2 : (y2 <<< 1).toNat = 2 * y2.toNat := by
      rw [BitVec.toNat_shiftLeft, Nat.shiftLeft_eq, Nat.mod_eq_of_lt (by omega), Nat.mul_comm]
    by_cases hlow : (y2 <<< 1).ult x.a1 = true
    · rw [if_pos hlow]
      exact Leads.done (.inr ⟨_, by omega, k + 1, _, _, rfl, rfl, hdouble⟩)
    · rw [if_neg hlow]
      rw [BitVec.ult_eq_decide, decide_eq_true_eq] at hlow
      exact Leads.done (.inl ⟨k + 1, _, _, rfl, hdouble, by omega⟩)
  · rw [if_pos (by rw [Bool.eq_false_iff, Ne, zero_slt_iff]; omega)]
    exact Leads.done (.inl ⟨k, y2, y3, rfl, h, by omega⟩)

/-- What the way down has found, with `k` bits of the quotient still to come. -/
structure Partial (n d : Word) (k : ℕ) (q r : Word) : Prop where
  eq : n.toNat = q.toNat * d.toNat + r.toNat
  lt : r.toNat < d.toNat * 2 ^ k
  dvd : 2 ^ k ∣ q.toNat

namespace Partial

variable {n d q r x2 x3 : Word}

/-- The scaled divisor does not fit. -/
theorem skip (h : Partial n d (k + 1) q r) (hs : Scaled d k x2 x3) (hlt : r.toNat < x2.toNat) :
    Partial n d k q r where
  eq := h.eq
  lt := lt_of_lt_of_eq hlt hs.divisor
  dvd := Dvd.dvd.trans (pow_dvd_pow 2 (Nat.le_succ k)) h.dvd

/-- The scaled divisor is subtracted, and the bit of the quotient is set. -/
theorem subtract (h : Partial n d (k + 1) q r) (hs : Scaled d k x2 x3)
    (hle : x2.toNat ≤ r.toNat) : Partial n d k (q ||| x3) (r - x2) := by
  obtain ⟨m, hm⟩ := h.dvd
  have hor : (q ||| x3).toNat = q.toNat + 2 ^ k := by
    rw [BitVec.toNat_or, hs.bit, hm, Nat.two_pow_add_eq_or_of_lt]
    exact Nat.pow_lt_pow_right (by decide) (Nat.lt_succ_self k)
  have hsub : (r - x2).toNat = r.toNat - x2.toNat := BitVec.toNat_sub_of_le hle
  have hdiv := hs.divisor
  have heq := h.eq
  have hlt := h.lt
  rw [pow_succ, ← Nat.mul_assoc] at hlt
  constructor
  · rw [hor, hsub, Nat.add_mul, Nat.mul_comm (2 ^ k), ← hdiv]
    omega
  · omega
  · rw [hor, hm, pow_succ, Nat.mul_assoc]
    exact (Nat.dvd_mul_right _ _).add (Nat.dvd_refl _)

/-- All bits are there. -/
theorem done (h : Partial n d 0 q r) : q = riscvDivu n d ∧ r = riscvRemu n d := by
  obtain ⟨heq, hlt, -⟩ := h
  rw [pow_zero, Nat.mul_one] at hlt
  have hd : d ≠ 0 := by
    rintro rfl
    simp at hlt
  rw [riscvDivu, riscvRemu, if_neg hd, if_neg hd]
  constructor
  · apply BitVec.eq_of_toNat_eq
    rw [BitVec.toNat_udiv, heq, Nat.mul_comm, Nat.mul_add_div (by omega), Nat.div_eq_of_lt hlt,
      Nat.add_zero]
  · apply BitVec.eq_of_toNat_eq
    rw [BitVec.toNat_umod, heq, Nat.mul_comm, Nat.mul_add_mod, Nat.mod_eq_of_lt hlt]

end Partial

/-- One turn of the way down. -/
theorem leads_turn (hc : CodeAt s.mem base code) {n d : Word} (hp : Partial n d (k + 1) x.a0 x.a1)
    (hs : Scaled d k x.a2 x.a3) :
    Leads CPU.step (regs s (lineAt base L3) x) fun t => ∃ q r, Partial n d k q r ∧
      t = regs s (lineAt base (if x.a3 >>> 1 = 0 then L5 else L3))
        { x with a0 := q, a1 := r, a2 := x.a2 >>> 1, a3 := x.a3 >>> 1 } := by
  have hend : ∀ q r, Partial n d k q r →
      Leads CPU.step (regs s (lineAt base L4) { x with a0 := q, a1 := r }) fun t =>
        ∃ q r, Partial n d k q r ∧
          t = regs s (lineAt base (if x.a3 >>> 1 = 0 then L5 else L3))
            { x with a0 := q, a1 := r, a2 := x.a2 >>> 1, a3 := x.a3 >>> 1 } := by
    intro q r hp
    refine next (a := srli a3 a3 1) hc rfl ?_
    simp only [exec_srli, gpr_a3, assign_a3, lineAt_add_four]
    refine next (a := srli a2 a2 1) hc rfl ?_
    simp only [exec_srli, gpr_a2, assign_a2, lineAt_add_four]
    refine next (k := 18) (a := bnez a3 (offset 18 L3)) hc rfl ?_
    simp only [bnez, exec_bne, BitVec.ofNat_eq_ofNat, gpr_zero, gpr_a3, pc_regs, regs_goto,
      lineAt_add_offset, lineAt_add_four, ← apply_ite (lineAt base)]
    exact Leads.done ⟨q, r, hp, rfl⟩
  refine next (k := 13) (a := bltu a1 a2 (offset 13 L4)) hc rfl ?_
  simp only [exec_bltu, gpr_a1, gpr_a2, pc_regs, regs_goto, lineAt_add_offset, lineAt_add_four,
    BitVec.ofNat_eq_ofNat, BitVec.ult_eq_decide, decide_eq_true_eq]
  by_cases hlt : x.a1.toNat < x.a2.toNat
  · rw [if_pos hlt]
    exact hend _ _ (hp.skip hs hlt)
  · rw [if_neg hlt]
    refine next (a := Asm.sub a1 a1 a2) hc rfl ?_
    simp only [exec_sub, gpr_a1, gpr_a2, assign_a1, lineAt_add_four]
    refine next (a := Asm.or a0 a0 a3) hc rfl ?_
    simp only [exec_or, gpr_a0, gpr_a3, assign_a0, lineAt_add_four]
    exact hend _ _ (hp.subtract hs (Nat.le_of_not_lt hlt))

/-- **The way down.** -/
theorem leads_L5 (hc : CodeAt s.mem base code) {n d : Word} (hp : Partial n d (k + 1) x.a0 x.a1)
    (hs : Scaled d k x.a2 x.a3) :
    Leads CPU.step (regs s (lineAt base L3) x) fun t => ∃ y2 y3, t = regs s (lineAt base L5)
      { x with a0 := riscvDivu n d, a1 := riscvRemu n d, a2 := y2, a3 := y3 } := by
  induction k generalizing x with
  | zero =>
      have hbit : x.a3 >>> 1 = 0 := by
        apply BitVec.eq_of_toNat_eq
        rw [BitVec.toNat_ushiftRight, hs.bit]
        rfl
      refine (leads_turn hc hp hs).mono ?_
      rintro _ ⟨q, r, hp, rfl⟩
      rw [if_pos hbit, hp.done.1, hp.done.2]
      exact ⟨_, _, rfl⟩
  | succ k ih =>
      have hbit : x.a3 >>> 1 ≠ 0 := by
        intro h0
        have hbit := hs.half.bit
        rw [h0] at hbit
        exact absurd hbit (Nat.two_pow_pos k).ne
      refine (leads_turn hc hp hs).bind ?_
      rintro _ ⟨q, r, hp, rfl⟩
      rw [if_neg hbit]
      exact ih hp hs.half

/-- **The unsigned division**, up to its return. -/
theorem leads_udivdi3 (hc : CodeAt s.mem base code) (x : Regs) :
    Leads CPU.step (regs s (lineAt base udivdi3) x) fun t => ∃ y2 y3, t = regs s (lineAt base L5)
      { x with a0 := riscvDivu x.a0 x.a1, a1 := riscvRemu x.a0 x.a1, a2 := y2, a3 := y3 } := by
  have hx := x.a0.isLt
  refine next (a := mv a2 a1) hc rfl ?_
  simp only [mv, exec_addi, gpr_a1, assign_a2, lineAt_add_four, BitVec.ofNat_eq_ofNat,
    BitVec.add_zero]
  refine next (a := mv a1 a0) hc rfl ?_
  simp only [mv, exec_addi, gpr_a0, assign_a1, lineAt_add_four, BitVec.ofNat_eq_ofNat,
    BitVec.add_zero]
  refine next (a := li a0 (-1)) hc rfl ?_
  simp only [li, exec_addi, gpr_zero, assign_a0, lineAt_add_four, BitVec.ofNat_eq_ofNat,
    BitVec.zero_add]
  refine next (k := 5) (a := beqz a2 (offset 5 L5)) hc rfl ?_
  simp only [beqz, exec_beq, gpr_zero, gpr_a2, pc_regs, regs_goto, lineAt_add_offset,
    lineAt_add_four, BitVec.ofNat_eq_ofNat]
  by_cases hd : x.a1 = 0#32
  · rw [if_pos hd]
    refine Leads.done ⟨x.a1, x.a3, ?_⟩
    have hzero : x.a1 = 0 := hd
    rw [riscvDivu, riscvRemu, if_pos hzero, if_pos hzero]
    rfl
  · rw [if_neg hd]
    have hpos : 0 < x.a1.toNat := by
      rcases Nat.eq_zero_or_pos x.a1.toNat with h0 | hpos
      · exact absurd (BitVec.eq_of_toNat_eq h0) hd
      · exact hpos
    have hscaled : Scaled x.a1 0 x.a1 1#32 := ⟨by simp, rfl⟩
    refine Leads.bind (P := fun t => ∃ k y2 y3, t = regs s (lineAt base L2)
      { x with a0 := -1, a1 := x.a0, a2 := y2, a3 := y3 } ∧ Scaled x.a1 k y2 y3 ∧
        x.a0.toNat < 2 * y2.toNat) ?_ ?_
    · refine next (a := li a3 1) hc rfl ?_
      simp only [li, exec_addi, gpr_zero, assign_a3, lineAt_add_four, BitVec.ofNat_eq_ofNat,
        BitVec.zero_add]
      refine next (k := 7) (a := bgeu a2 a1 (offset 7 L2)) hc rfl ?_
      simp only [exec_bgeu, gpr_a1, gpr_a2, pc_regs, regs_goto, lineAt_add_offset,
        lineAt_add_four, BitVec.ofNat_eq_ofNat, BitVec.ult_eq_decide, Bool.not_eq_true',
        decide_eq_false_iff_not]
      by_cases hlt : x.a1.toNat < x.a0.toNat
      · rw [if_neg (by simpa using hlt)]
        exact leads_L2 (x := { x with a0 := -1#32, a1 := x.a0 }) hc hpos hscaled
      · rw [if_pos hlt]
        exact Leads.done ⟨0, _, _, rfl, hscaled, by omega⟩
    · rintro _ ⟨k, y2, y3, rfl, hs, hlt⟩
      refine next (a := li a0 0) hc rfl ?_
      simp only [li, exec_addi, gpr_zero, assign_a0, lineAt_add_four, BitVec.ofNat_eq_ofNat,
        BitVec.zero_add]
      have hp : Partial x.a0 x.a1 (k + 1) 0#32 x.a0 := by
        refine ⟨by simp, ?_, by simp⟩
        rw [pow_succ, ← Nat.mul_assoc, ← hs.divisor]
        omega
      exact leads_L5 hc hp hs

/-! ### Calls and returns -/

/-- Lines are even, so that a jump to one is not rounded. -/
theorem lineAt_even (hb : base.toNat % 2 = 0) (k : ℕ) : lineAt base k &&& ~~~1#32 = lineAt base k := by
  have hclear : (lineAt base k &&& ~~~1#32).toNat = (lineAt base k).toNat / 2 * 2 :=
    toNat_and_not_low _ 1
  have heven : (lineAt base k).toNat % 2 = 0 := by
    rw [lineAt, BitVec.toNat_add, BitVec.toNat_ofNat]
    omega
  apply BitVec.eq_of_toNat_eq
  omega

/-- A call of the unsigned division. -/
theorem leads_call (hc : CodeAt s.mem base code) (hb : base.toNat % 2 = 0)
    (hhigh : code[k]? = some (auipc ra 0))
    (hlow : code[k + 1]? = some (jalr ra (offset (k + 1) udivdi3 + 4) ra)) :
    Leads CPU.step (regs s (lineAt base k) x) fun t => ∃ y2 y3, t = regs s (lineAt base (k + 2))
      { x with ra := lineAt base (k + 2), a0 := riscvDivu x.a0 x.a1, a1 := riscvRemu x.a0 x.a1
               a2 := y2, a3 := y3 } := by
  refine next hc hhigh ?_
  simp only [exec_auipc, pc_regs, assign_ra, lineAt_add_four, BitVec.ofNat_eq_ofNat,
    BitVec.add_zero]
  refine next hc hlow ?_
  have htarget : lineAt base k + (offset (k + 1) udivdi3 + 4#32) = lineAt base udivdi3 := by
    rw [BitVec.add_comm (offset _ _), ← BitVec.add_assoc, lineAt_add_four, lineAt_add_offset]
  simp only [exec_jalr, gpr_ra, link_ra, lineAt_add_four, BitVec.ofNat_eq_ofNat, htarget,
    lineAt_even hb]
  refine (leads_udivdi3 hc _).bind ?_
  rintro _ ⟨y2, y3, rfl⟩
  refine next (a := jr ra) hc rfl ?_
  simp only [jr, exec_jalr, gpr_ra, link_zero, BitVec.ofNat_eq_ofNat, BitVec.add_zero,
    lineAt_even hb]
  exact Leads.done ⟨y2, y3, rfl⟩

/-! ### The signed division -/

section Signs

variable {n d : Word}

/-- The hardware needs no special case for the overflow. -/
theorem riscvDiv_of_ne (hd : d ≠ 0) : riscvDiv n d = n.sdiv d := by
  rw [riscvDiv, if_neg hd]
  split_ifs with h
  · rw [h.1, h.2]
    rfl
  · rfl

/-- The remainder of a division by another value than 0. -/
theorem riscvRem_of_ne (hd : d ≠ 0) : riscvRem n d = n.srem d := by
  rw [riscvRem, if_neg hd]
  split_ifs with h
  · rw [h.1, h.2]
    rfl
  · rfl

/-- A negative value is not 0. -/
theorem ne_zero_of_msb (h : d.msb = true) : d ≠ 0 := by
  rintro rfl
  exact absurd h (by decide)

/-- A quotient of two numbers that are not negative. -/
theorem riscvDiv_pos (hn : n.msb = false) (hd : d.msb = false) : riscvDiv n d = riscvDivu n d := by
  by_cases h0 : d = 0
  · rw [riscvDiv, riscvDivu, if_pos h0, if_pos h0]
  · rw [riscvDiv_of_ne h0, BitVec.sdiv_eq, hn, hd, riscvDivu, if_neg h0]
    rfl

/-- The quotient by a negative divisor is the negative of the one by its magnitude. -/
theorem riscvDiv_neg_divisor (hn : n.msb = false) (hd : d.msb = true) :
    riscvDiv n d = -riscvDivu n (-d) := by
  have h0 := ne_zero_of_msb hd
  rw [riscvDiv_of_ne h0, BitVec.sdiv_eq, hn, hd, riscvDivu, if_neg (neg_ne_zero.mpr h0)]
  rfl

/-- The quotient of a negative dividend is the negative of the one of its magnitude. -/
theorem riscvDiv_neg_dividend (hn : n.msb = true) (hd : d.msb = false) (h0 : d ≠ 0) :
    riscvDiv n d = -riscvDivu (-n) d := by
  rw [riscvDiv_of_ne h0, BitVec.sdiv_eq, hn, hd, riscvDivu, if_neg h0]
  rfl

/-- Zero is handled as a negative divisor. -/
theorem riscvDiv_neg_both (hn : n.msb = true) (hd : d.msb = true ∨ d = 0) :
    riscvDiv n d = riscvDivu (-n) (-d) := by
  by_cases h0 : d = 0
  · rw [h0, riscvDiv, riscvDivu, if_pos rfl, if_pos neg_zero]
  · have hneg : d.msb = true := by tauto
    rw [riscvDiv_of_ne h0, BitVec.sdiv_eq, hn, hneg, riscvDivu, if_neg (neg_ne_zero.mpr h0)]
    rfl

/-- The divisor of a remainder, without its sign. -/
def magnitude (d : Word) : Word := if d.msb then -d else d

/-- The remainder of a dividend that is not negative. -/
theorem riscvRem_pos (hn : n.msb = false) : riscvRem n d = riscvRemu n (magnitude d) := by
  by_cases h0 : d = 0
  · rw [h0]
    rfl
  · rw [riscvRem_of_ne h0, BitVec.srem_eq, hn, magnitude]
    cases hd : d.msb with
    | false => rw [if_neg Bool.false_ne_true, riscvRemu, if_neg h0]
    | true => rw [if_pos rfl, riscvRemu, if_neg (neg_ne_zero.mpr h0)]

/-- The remainder of a negative dividend has its sign. -/
theorem riscvRem_neg (hn : n.msb = true) : riscvRem n d = -riscvRemu (-n) (magnitude d) := by
  by_cases h0 : d = 0
  · rw [h0, riscvRem, if_pos rfl]
    exact (neg_neg n).symm
  · rw [riscvRem_of_ne h0, BitVec.srem_eq, hn, magnitude]
    cases hd : d.msb with
    | false => rw [if_neg Bool.false_ne_true, riscvRemu, if_neg h0]
    | true => rw [if_pos rfl, riscvRemu, if_neg (neg_ne_zero.mpr h0)]

end Signs

/-! ### The routines -/

/-- `__udivdi3` returns the quotient. -/
theorem leads_udiv (hc : CodeAt s.mem base code) (x : Regs) :
    Leads CPU.step (regs s (lineAt base udivdi3) x) (Result s x.ra (riscvDivu x.a0 x.a1)) := by
  refine (leads_udivdi3 hc x).bind ?_
  rintro _ ⟨y2, y3, rfl⟩
  refine next (a := jr ra) hc rfl ?_
  simp only [jr, exec_jalr, gpr_ra, link_zero, BitVec.ofNat_eq_ofNat, BitVec.add_zero]
  exact Leads.done ⟨_, rfl, rfl⟩

/-- `__umoddi3` returns the remainder. -/
theorem leads_umoddi3 (hc : CodeAt s.mem base code) (hb : base.toNat % 2 = 0) (x : Regs) :
    Leads CPU.step (regs s (lineAt base umoddi3) x) (Result s x.ra (riscvRemu x.a0 x.a1)) := by
  refine next (a := mv t0 ra) hc rfl ?_
  simp only [mv, exec_addi, gpr_ra, assign_t0, lineAt_add_four, BitVec.ofNat_eq_ofNat,
    BitVec.add_zero]
  refine (leads_call (k := 21) hc hb rfl rfl).bind ?_
  rintro _ ⟨y2, y3, rfl⟩
  refine next (a := mv a0 a1) hc rfl ?_
  simp only [mv, exec_addi, gpr_a1, assign_a0, lineAt_add_four, BitVec.ofNat_eq_ofNat,
    BitVec.add_zero]
  refine next (a := jr t0) hc rfl ?_
  simp only [jr, exec_jalr, gpr_t0, link_zero, BitVec.ofNat_eq_ofNat, BitVec.add_zero]
  exact Leads.done ⟨_, rfl, rfl⟩

/-- The quotient is negated. -/
theorem leads_L12 (hc : CodeAt s.mem base code) (hb : base.toNat % 2 = 0) (x : Regs) :
    Leads CPU.step (regs s (lineAt base L12) x) (Result s x.ra (-riscvDivu x.a0 x.a1)) := by
  refine next (a := mv t0 ra) hc rfl ?_
  simp only [mv, exec_addi, gpr_ra, assign_t0, lineAt_add_four, BitVec.ofNat_eq_ofNat,
    BitVec.add_zero]
  refine (leads_call (k := 31) hc hb rfl rfl).bind ?_
  rintro _ ⟨y2, y3, rfl⟩
  refine next (a := neg a0 a0) hc rfl ?_
  simp only [neg, exec_sub, gpr_a0, gpr_zero, assign_a0, lineAt_add_four, BitVec.ofNat_eq_ofNat,
    BitVec.zero_sub]
  refine next (a := jr t0) hc rfl ?_
  simp only [jr, exec_jalr, gpr_t0, link_zero, BitVec.ofNat_eq_ofNat, BitVec.add_zero]
  exact Leads.done ⟨_, rfl, rfl⟩

/-- `__divdi3` returns the quotient with its sign. -/
theorem leads_divdi3 (hc : CodeAt s.mem base code) (hb : base.toNat % 2 = 0) (x : Regs) :
    Leads CPU.step (regs s (lineAt base divdi3) x) (Result s x.ra (riscvDiv x.a0 x.a1)) := by
  refine next (k := 0) (a := bltz a0 (offset 0 L10)) hc rfl ?_
  simp only [bltz, exec_blt, gpr_a0, gpr_zero, pc_regs, regs_goto, lineAt_add_offset,
    lineAt_add_four, BitVec.ofNat_eq_ofNat, BitVec.slt_zero_eq_msb]
  cases hn : x.a0.msb with
  | false =>
      rw [if_neg Bool.false_ne_true]
      refine next (k := 1) (a := bltz a1 (offset 1 L11)) hc rfl ?_
      simp only [bltz, exec_blt, gpr_a1, gpr_zero, pc_regs, regs_goto, lineAt_add_offset,
        lineAt_add_four, BitVec.ofNat_eq_ofNat, BitVec.slt_zero_eq_msb]
      cases hd : x.a1.msb with
      | false =>
          rw [if_neg Bool.false_ne_true, riscvDiv_pos hn hd]
          exact leads_udiv hc x
      | true =>
          rw [if_pos rfl, riscvDiv_neg_divisor hn hd]
          refine next (a := neg a1 a1) hc rfl ?_
          simp only [neg, exec_sub, gpr_a1, gpr_zero, assign_a1, lineAt_add_four,
            BitVec.ofNat_eq_ofNat, BitVec.zero_sub]
          exact leads_L12 hc hb _
  | true =>
      rw [if_pos rfl]
      refine next (a := neg a0 a0) hc rfl ?_
      simp only [neg, exec_sub, gpr_a0, gpr_zero, assign_a0, lineAt_add_four,
        BitVec.ofNat_eq_ofNat, BitVec.zero_sub]
      refine next (k := 26) (a := bgtz a1 (offset 26 L12)) hc rfl ?_
      simp only [bgtz, exec_blt, gpr_a1, gpr_zero, pc_regs, regs_goto, lineAt_add_offset,
        lineAt_add_four, BitVec.ofNat_eq_ofNat]
      by_cases hpos : (0#32).slt x.a1 = true
      · have hd := (zero_slt_iff x.a1).mp hpos
        have hmsb : x.a1.msb = false := by
          rw [BitVec.msb_eq_false_iff_two_mul_lt]
          omega
        have hne : x.a1 ≠ 0 := by
          rintro h0
          rw [h0] at hd
          exact absurd hd.1 (by decide)
        rw [if_pos hpos, riscvDiv_neg_dividend hn hmsb hne]
        exact leads_L12 hc hb _
      · have hd : x.a1.msb = true ∨ x.a1 = 0 := by
          rw [zero_slt_iff] at hpos
          rw [BitVec.msb_eq_true_iff_two_mul_ge]
          by_cases h0 : x.a1.toNat = 0
          · exact .inr (BitVec.eq_of_toNat_eq h0)
          · exact .inl (by omega)
        rw [if_neg hpos, riscvDiv_neg_both hn hd]
        refine next (a := neg a1 a1) hc rfl ?_
        simp only [neg, exec_sub, gpr_a1, gpr_zero, assign_a1, lineAt_add_four,
          BitVec.ofNat_eq_ofNat, BitVec.zero_sub]
        refine next (k := 28) (a := j (offset 28 udivdi3)) hc rfl ?_
        simp only [j, exec_jal, pc_regs, link_zero, lineAt_add_offset, BitVec.ofNat_eq_ofNat]
        exact leads_udiv hc _

/-- The remainder of a dividend that is not negative. -/
theorem leads_L30 (hc : CodeAt s.mem base code) (hb : base.toNat % 2 = 0) (x : Regs) :
    Leads CPU.step (regs s (lineAt base L30) x) (Result s x.t0 (riscvRemu x.a0 x.a1)) := by
  refine (leads_call (k := 38) hc hb rfl rfl).bind ?_
  rintro _ ⟨y2, y3, rfl⟩
  refine next (a := mv a0 a1) hc rfl ?_
  simp only [mv, exec_addi, gpr_a1, assign_a0, lineAt_add_four, BitVec.ofNat_eq_ofNat,
    BitVec.add_zero]
  refine next (a := jr t0) hc rfl ?_
  simp only [jr, exec_jalr, gpr_t0, link_zero, BitVec.ofNat_eq_ofNat, BitVec.add_zero]
  exact Leads.done ⟨_, rfl, rfl⟩

/-- The remainder of a negative dividend. -/
theorem leads_L32 (hc : CodeAt s.mem base code) (hb : base.toNat % 2 = 0) (x : Regs) :
    Leads CPU.step (regs s (lineAt base L32) x) (Result s x.t0 (-riscvRemu (-x.a0) x.a1)) := by
  refine next (a := neg a0 a0) hc rfl ?_
  simp only [neg, exec_sub, gpr_a0, gpr_zero, assign_a0, lineAt_add_four, BitVec.ofNat_eq_ofNat,
    BitVec.zero_sub]
  refine (leads_call (k := 45) hc hb rfl rfl).bind ?_
  rintro _ ⟨y2, y3, rfl⟩
  refine next (a := neg a0 a1) hc rfl ?_
  simp only [neg, exec_sub, gpr_a1, gpr_zero, assign_a0, lineAt_add_four, BitVec.ofNat_eq_ofNat,
    BitVec.zero_sub]
  refine next (a := jr t0) hc rfl ?_
  simp only [jr, exec_jalr, gpr_t0, link_zero, BitVec.ofNat_eq_ofNat, BitVec.add_zero]
  exact Leads.done ⟨_, rfl, rfl⟩

/-- `__moddi3` returns the remainder with its sign. -/
theorem leads_moddi3 (hc : CodeAt s.mem base code) (hb : base.toNat % 2 = 0) (x : Regs) :
    Leads CPU.step (regs s (lineAt base moddi3) x) (Result s x.ra (riscvRem x.a0 x.a1)) := by
  refine next (a := mv t0 ra) hc rfl ?_
  simp only [mv, exec_addi, gpr_ra, assign_t0, lineAt_add_four, BitVec.ofNat_eq_ofNat,
    BitVec.add_zero]
  refine next (k := 36) (a := bltz a1 (offset 36 L31)) hc rfl ?_
  simp only [bltz, exec_blt, gpr_a1, gpr_zero, pc_regs, regs_goto, lineAt_add_offset,
    lineAt_add_four, BitVec.ofNat_eq_ofNat, BitVec.slt_zero_eq_msb]
  cases hd : x.a1.msb with
  | false =>
      rw [if_neg Bool.false_ne_true]
      refine next (k := 37) (a := bltz a0 (offset 37 L32)) hc rfl ?_
      simp only [bltz, exec_blt, gpr_a0, gpr_zero, pc_regs, regs_goto, lineAt_add_offset,
        lineAt_add_four, BitVec.ofNat_eq_ofNat, BitVec.slt_zero_eq_msb]
      cases hn : x.a0.msb with
      | false =>
          rw [if_neg Bool.false_ne_true, riscvRem_pos hn, magnitude, hd]
          exact leads_L30 hc hb _
      | true =>
          rw [if_pos rfl, riscvRem_neg hn, magnitude, hd]
          exact leads_L32 hc hb _
  | true =>
      rw [if_pos rfl]
      refine next (a := neg a1 a1) hc rfl ?_
      simp only [neg, exec_sub, gpr_a1, gpr_zero, assign_a1, lineAt_add_four,
        BitVec.ofNat_eq_ofNat, BitVec.zero_sub]
      refine next (k := 43) (a := bge a0 0 (offset 43 L30)) hc rfl ?_
      simp only [exec_bge, gpr_a0, gpr_zero, pc_regs, regs_goto, lineAt_add_offset,
        lineAt_add_four, BitVec.ofNat_eq_ofNat, BitVec.slt_zero_eq_msb]
      cases hn : x.a0.msb with
      | false =>
          rw [if_pos (by decide), riscvRem_pos hn, magnitude, hd]
          exact leads_L30 hc hb _
      | true =>
          rw [if_neg (by decide), riscvRem_neg hn, magnitude, hd]
          exact leads_L32 hc hb _

end Runs

end Div

/-! ## `muldi3.S`, for 32 bits -/

namespace Mul

def muldi3 : ℕ := 0
def L1 : ℕ := 2
def L2 : ℕ := 5

/-- The text of `muldi3.S`. -/
def text : List Line := [
  -- __muldi3
  .inst (mv a2 a0),
  .inst (li a0 0),
  -- .L1
  .inst (andi a3 a1 1),
  .to (beqz a3) L2,
  .inst (Asm.add a0 a0 a2),
  -- .L2
  .inst (srli a1 a1 1),
  .inst (slli a2 a2 1),
  .to (bnez a1) L1,
  .inst (jr ra)]

/-- `muldi3.S`, assembled. -/
def code : List Asm := assemble text

/-- Every instruction leads to another line. -/
theorem continues : ∀ a ∈ code, a.Continues := by
  decide +kernel

variable {s : CPU} {base : Word} {x : Regs} {Q : CPU → Prop} {k : ℕ} {a : Asm}

/-- One line is executed. -/
theorem next (hc : CodeAt s.mem base code) (ha : code[k]? = some a)
    (h : Leads CPU.step (a.exec (regs s (lineAt base k) x)) Q) :
    Leads CPU.step (regs s (lineAt base k) x) Q :=
  regs_next continues hc ha h

/-- The lowest bit of the factor. -/
theorem toNat_low (n : Word) : (n &&& 1#32).toNat = n.toNat % 2 := by
  rw [BitVec.toNat_and]
  exact Nat.and_two_pow_sub_one_eq_mod n.toNat 1

theorem toNat_half (n : Word) : (n >>> 1).toNat = n.toNat / 2 := by
  rw [BitVec.toNat_ushiftRight, Nat.shiftRight_eq_div_pow]

/-- The lowest bit of a factor and the rest of it. -/
theorem mul_eq_bit (n d : Word) : n * d = (n &&& 1#32) * d + (n >>> 1) * (d <<< 1) := by
  have hn : (n &&& 1#32) + (n >>> 1) * 2#32 = n := by
    apply BitVec.eq_of_toNat_eq
    rw [BitVec.toNat_add, BitVec.toNat_mul, toNat_low, toNat_half, BitVec.toNat_ofNat]
    omega
  have hd : d <<< 1 = 2#32 * d := by
    rw [BitVec.shiftLeft_eq_mul_twoPow, BitVec.mul_comm]
    rfl
  calc n * d = ((n &&& 1#32) + (n >>> 1) * 2#32) * d := by rw [hn]
    _ = (n &&& 1#32) * d + (n >>> 1) * (d <<< 1) := by rw [hd]; ring

/-- The multiplicand is added if the bit is set. -/
theorem leads_L2 (hc : CodeAt s.mem base code) (x : Regs) :
    Leads CPU.step (regs s (lineAt base L1) x) fun t => t = regs s (lineAt base L2)
      { x with a0 := x.a0 + (x.a1 &&& 1#32) * x.a2, a3 := x.a1 &&& 1#32 } := by
  refine next (a := andi a3 a1 1) hc rfl ?_
  simp only [exec_andi, gpr_a1, assign_a3, lineAt_add_four, BitVec.ofNat_eq_ofNat]
  refine next (k := 3) (a := beqz a3 (offset 3 L2)) hc rfl ?_
  simp only [beqz, exec_beq, gpr_a3, gpr_zero, pc_regs, regs_goto, lineAt_add_offset,
    lineAt_add_four, BitVec.ofNat_eq_ofNat]
  by_cases hbit : x.a1 &&& 1#32 = 0#32
  · rw [if_pos hbit, hbit, BitVec.zero_mul, BitVec.add_zero]
    exact Leads.done rfl
  · have hone : x.a1 &&& 1#32 = 1#32 := by
      apply BitVec.eq_of_toNat_eq
      have hne : (x.a1 &&& 1#32).toNat ≠ 0 := fun h0 => hbit (BitVec.eq_of_toNat_eq h0)
      have hlow := toNat_low x.a1
      rw [BitVec.toNat_ofNat]
      omega
    rw [if_neg hbit, hone, BitVec.one_mul]
    refine next (a := Asm.add a0 a0 a2) hc rfl ?_
    simp only [exec_add, gpr_a0, gpr_a2, assign_a0, lineAt_add_four]
    exact Leads.done rfl

/-- One turn of the loop. -/
theorem leads_turn (hc : CodeAt s.mem base code) (x : Regs) :
    Leads CPU.step (regs s (lineAt base L1) x) fun t => ∃ y,
      t = regs s (lineAt base (if x.a1 >>> 1 = 0#32 then 8 else L1)) y ∧ y.ra = x.ra ∧
        y.a1 = x.a1 >>> 1 ∧ y.a0 + y.a1 * y.a2 = x.a0 + x.a1 * x.a2 := by
  refine (leads_L2 hc x).bind ?_
  rintro _ rfl
  refine next (a := srli a1 a1 1) hc rfl ?_
  simp only [exec_srli, gpr_a1, assign_a1, lineAt_add_four]
  refine next (a := slli a2 a2 1) hc rfl ?_
  simp only [exec_slli, gpr_a2, assign_a2, lineAt_add_four]
  refine next (k := 7) (a := bnez a1 (offset 7 L1)) hc rfl ?_
  simp only [bnez, exec_bne, gpr_a1, gpr_zero, pc_regs, regs_goto, lineAt_add_offset,
    lineAt_add_four, BitVec.ofNat_eq_ofNat, ← apply_ite (lineAt base)]
  refine Leads.done ⟨_, rfl, rfl, rfl, ?_⟩
  rw [mul_eq_bit x.a1, ← BitVec.add_assoc]
  rfl

/-- **Shift and add**: `a0 + a1 * a2` stays what it is. -/
theorem leads_L1 (hc : CodeAt s.mem base code) (x : Regs) :
    Leads CPU.step (regs s (lineAt base L1) x) (Result s x.ra (x.a0 + x.a1 * x.a2)) := by
  refine Leads.loop (I := fun m t => ∃ y, t = regs s (lineAt base L1) y ∧ y.a1.toNat = m ∧
    y.ra = x.ra ∧ y.a0 + y.a1 * y.a2 = x.a0 + x.a1 * x.a2) ?_ ⟨x, rfl, rfl, rfl, rfl⟩
  rintro _ _ ⟨y, rfl, rfl, hra, hsum⟩
  refine (leads_turn hc y).bind ?_
  rintro _ ⟨z, rfl, hzra, hz1, hzsum⟩
  by_cases h0 : y.a1 >>> 1 = 0#32
  · rw [if_pos h0]
    refine next (a := jr ra) hc rfl ?_
    simp only [jr, exec_jalr, gpr_ra, link_zero, BitVec.ofNat_eq_ofNat, BitVec.add_zero]
    rw [hz1, h0, BitVec.zero_mul, BitVec.add_zero] at hzsum
    rw [hzra, hra]
    exact Leads.done (.inl ⟨z, rfl, hzsum.trans hsum⟩)
  · rw [if_neg h0]
    have hpos : (y.a1 >>> 1).toNat ≠ 0 := fun h => h0 (BitVec.eq_of_toNat_eq h)
    have hhalf := toNat_half y.a1
    refine Leads.done (.inr ⟨z.a1.toNat, ?_, z, rfl, rfl, hzra.trans hra, hzsum.trans hsum⟩)
    rw [hz1]
    omega

/-- `__muldi3` returns the product. -/
theorem leads_muldi3 (hc : CodeAt s.mem base code) (x : Regs) :
    Leads CPU.step (regs s (lineAt base muldi3) x) (Result s x.ra (x.a0 * x.a1)) := by
  refine next (a := mv a2 a0) hc rfl ?_
  simp only [mv, exec_addi, gpr_a0, assign_a2, lineAt_add_four, BitVec.ofNat_eq_ofNat,
    BitVec.add_zero]
  refine next (a := li a0 0) hc rfl ?_
  simp only [li, exec_addi, gpr_zero, assign_a0, lineAt_add_four, BitVec.ofNat_eq_ofNat,
    BitVec.zero_add]
  have hsum := leads_L1 (s := s) hc { x with a0 := 0#32, a2 := x.a0 }
  rw [BitVec.zero_add, BitVec.mul_comm] at hsum
  exact hsum

end Mul

/-! ## The statement -/

/-- A routine that is called in `s` has returned in `t`: the result is in `a0`, and besides `pc` only
registers that a caller does not rely on have changed. -/
structure Returns (s : CPU) (v : Word) (t : CPU) : Prop where
  pc : t.pc = s.gpr ra &&& ~~~ 1
  a0 : t.gpr a0 = v
  gpr : ∀ r, r ∉ [ra, t0, Libgcc.a0, a1, a2, a3] → t.gpr r = s.gpr r
  csr : t.csr = s.csr
  privLevel : t.privLevel = s.privLevel
  mem : t.mem = s.mem

/-- The instruction that a routine stands for, with its operands where the routine has them. -/
def instead (i : Inst) : Asm := { inst := i, rd := a0, rs1 := a0, rs2 := a1 }

/-- **A routine replaces an instruction**: called in any state, it returns what the instruction would
have assigned. -/
def Replaces (code : List Asm) (entry : ℕ) (i : Inst) : Prop :=
  ∀ (s : CPU) (base : Word), CodeAt s.mem base code → base.toNat % 2 = 0 → s.gpr 0 = 0 →
    s.pc = lineAt base entry → Leads CPU.step s (Returns s (((instead i).exec s).gpr a0))

/-- The registers of the routines in a state. -/
def regsOf (s : CPU) : Regs := ⟨s.gpr ra, s.gpr t0, s.gpr a0, s.gpr a1, s.gpr a2, s.gpr a3⟩

/-- A state in which a routine begins. -/
theorem regs_regsOf {s : CPU} (h0 : s.gpr 0 = 0) : regs s s.pc (regsOf s) = s := by
  have hgpr : (regs s s.pc (regsOf s)).gpr = s.gpr := by
    funext r
    simp only [regs, regsOf]
    split_ifs with h <;> simp_all
  change { s with gpr := (regs s s.pc (regsOf s)).gpr, pc := s.pc } = s
  rw [hgpr]

/-- A routine that has its result has returned. -/
theorem returns_of_result {s t : CPU} {v : Word} (h0 : s.gpr 0 = 0) (h : Result s (s.gpr ra) v t) :
    Returns s v t := by
  obtain ⟨y, rfl, hv⟩ := h
  refine ⟨rfl, hv, ?_, rfl, rfl, rfl⟩
  intro r hr
  simp only [List.mem_cons, List.not_mem_nil, or_false, not_or] at hr
  obtain ⟨h1, h5, h10, h11, h12, h13⟩ := hr
  simp only [regs, h1, h5, h10, h11, h12, h13, if_false]
  split_ifs with h
  · rw [h, h0]
  · rfl

/-- What a routine leads to, as what it replaces. -/
theorem replaces_of_leads {code : List Asm} {entry : ℕ} {i : Inst} {v : Word → Word → Word}
    (hv : ∀ s : CPU, ((instead i).exec s).gpr a0 = v (s.gpr a0) (s.gpr a1))
    (h : ∀ (s : CPU) (base : Word), CodeAt s.mem base code → base.toNat % 2 = 0 → ∀ x,
      Leads CPU.step (regs s (lineAt base entry) x) (Result s x.ra (v x.a0 x.a1))) :
    Replaces code entry i := by
  intro s base hc hb h0 hpc
  have hleads := h s base hc hb (regsOf s)
  rw [← hpc, regs_regsOf h0] at hleads
  refine hleads.mono fun t ht => ?_
  rw [hv]
  exact returns_of_result h0 ht

/-- The routines with the instructions they stand for. -/
def routines : List (List Asm × ℕ × Inst) :=
  [(Mul.code, Mul.muldi3, .mul), (Div.code, Div.divdi3, .div), (Div.code, Div.udivdi3, .divu),
   (Div.code, Div.moddi3, .rem), (Div.code, Div.umoddi3, .remu)]

/-- **Software arithmetic agrees with the M extension.** -/
theorem routines_replace : ∀ r ∈ routines, Replaces r.1 r.2.1 r.2.2 := by
  have hmul : ∀ s : CPU, ((instead .mul).exec s).gpr a0 = s.gpr a0 * s.gpr a1 := by
    intro s
    have h : ((instead .mul).exec s).gpr a0 =
      ((s.gpr a0).signExtend 64 * (s.gpr a1).signExtend 64).setWidth 32 := rfl
    rw [h, mul_eq, BitVec.ofInt_mul, BitVec.ofInt_toInt, BitVec.ofInt_toInt]
  intro r hr
  simp only [routines, List.mem_cons, List.not_mem_nil, or_false] at hr
  rcases hr with rfl | rfl | rfl | rfl | rfl
  · exact replaces_of_leads hmul fun s base hc _ => Mul.leads_muldi3 hc
  · exact replaces_of_leads (v := riscvDiv) (fun _ => rfl) fun s base => Div.leads_divdi3
  · exact replaces_of_leads (v := riscvDivu) (fun _ => rfl) fun s base hc _ => Div.leads_udiv hc
  · exact replaces_of_leads (v := riscvRem) (fun _ => rfl) fun s base => Div.leads_moddi3
  · exact replaces_of_leads (v := riscvRemu) (fun _ => rfl) fun s base => Div.leads_umoddi3

/-- A call of `__divsi3` with -7 and 2. -/
def divState : CPU :=
  { restart 0x80000000 (image 0x80000000 Div.code) with
    gpr := Function.update (Function.update (fun _ => 0) a0 (-7)) a1 2 }

/-- It returns -3. -/
theorem routines_replace_div : Leads CPU.step divState (Returns divState (-3)) :=
  routines_replace (Div.code, Div.divdi3, .div) (by simp [routines]) divState 0x80000000
    (codeAt_image _ _ (by decide)) (by decide) (by decide) (by decide)

end Libgcc

end Nemu

end Bailuwan
