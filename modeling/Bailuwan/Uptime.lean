/-
# The uptime (`am/src/riscv/ysyxsoc/ioe/timer.c`)

`__am_timer_uptime` loads the low half of `mtime` and then the high half, and the timer
counts on between the two.  The value it puts together lies between the values of `mtime`
at the two loads if and only if the low half has not wrapped in between
(`untorn_iff`).
-/
import Bailuwan.Core

namespace Bailuwan

open Synchronous AXI4

/-! ## The program -/

namespace AM

/-- The timer, whose low half is there. -/
def RTC_MMIO : Word := 0x02000000

/-- The address of the high half. -/
def rtcHigh : Word := RTC_MMIO + 4

/-- `mtime` counts microseconds. -/
def cycle_per_us : BitVec 64 := 1

/-- `uptime->us`, from the two halves it has loaded. -/
def timer_uptime (lo hi : Word) : BitVec 64 :=
  let mtime := hi.setWidth 64 <<< 32 ||| lo.setWidth 64
  mtime * cycle_per_us

end AM

open AM

/-! ## The timer, loaded by a program -/

namespace CLINT

/-- The timer by itself, counting from any value. -/
def machine : Machine CLINT Out where
  init _ := True
  next := next

variable (r : machine.Run)

/-- A load of `addr`: the address is accepted in `a`, and the beat taken in `t` is the one
that answers it. -/
structure Load (addr : Word) (a t : ℕ) : Prop where
  accepted : arFire (r.inp a) (r.st a).ioIn = true
  addr : (r.inp a).ar.bits.addr = addr
  later : a < t
  taken : rFire (r.inp t) (r.st t).ioIn = true
  alone : ∀ u, a < u → u < t → arFire (r.inp u) (r.st u).ioIn = false

/-- The two loads of a call, the second one begun when the first one is done. -/
def Call (t₁ t₂ : ℕ) : Prop :=
  ∃ a₁ a₂, Load r RTC_MMIO a₁ t₁ ∧ Load r rtcHigh a₂ t₂ ∧ t₁ ≤ a₂

/-- The word given in `t`. -/
def word (t : ℕ) : Word := (r.st t).ioIn.r.bits.data

/-- The result of a call that loads in `t₁` and `t₂`. -/
def uptime (t₁ t₂ : ℕ) : BitVec 64 := timer_uptime (word r t₁) (word r t₂)

/-- `mtime` does not wrap between `t₁` and `t₂`. -/
def NoWrap (t₁ t₂ : ℕ) : Prop := (r.st t₁).mtime.toNat + (t₂ - t₁) < 2 ^ 64

/-- **The statement about the uptime**: a call gives a value between those of `mtime` at its two
loads, and a later call no smaller one. -/
structure Untorn : Prop where
  between : ∀ t₁ t₂, Call r t₁ t₂ → NoWrap r t₁ t₂ →
    (r.st t₁).mtime ≤ uptime r t₁ t₂ ∧ uptime r t₁ t₂ ≤ (r.st t₂).mtime
  monotone : ∀ t₁ t₂ t₃ t₄, Call r t₁ t₂ → Call r t₃ t₄ → t₂ < t₃ → NoWrap r t₁ t₄ →
    uptime r t₁ t₂ ≤ uptime r t₃ t₄

variable {r}

/-! ## What is loaded -/

/-- The address stays until another one is accepted. -/
theorem Load.addrReg {addr : Word} {a t : ℕ} (h : Load r addr a t) :
    (r.st t).addrReg = addr := by
  have hkeep : ∀ u, a < u → u ≤ t → (r.st u).addrReg = addr := by
    intro u
    induction u with
    | zero => intro hlt; omega
    | succ u ih =>
        intro hlt hle
        have hnext : (r.st (u + 1)).addrReg =
            if arFire (r.inp u) (r.st u).ioIn then (r.inp u).ar.bits.addr else (r.st u).addrReg := by
          rw [r.step u]
          rfl
        rcases Nat.lt_or_ge a u with hau | hau
        · rw [hnext, h.alone u hau (by omega)]
          exact ih hau (by omega)
        · rw [show u = a by omega] at hnext ⊢
          rw [hnext, h.accepted]
          exact h.addr
  exact hkeep t h.later le_rfl

/-- The first word of a call is the low half of `mtime`. -/
theorem Load.low {a t : ℕ} (h : Load r RTC_MMIO a t) :
    word r t = (r.st t).mtime.extractLsb' 0 32 := if_pos h.addrReg

/-- The second one is the high half. -/
theorem Load.high {a t : ℕ} (h : Load r rtcHigh a t) :
    word r t = (r.st t).mtime.extractLsb' 32 32 := by
  refine if_neg ?_
  rw [h.addrReg]
  decide

/-- The number put together from two words. -/
theorem timer_uptime_toNat (lo hi : Word) :
    (timer_uptime lo hi).toNat = hi.toNat * 2 ^ 32 + lo.toNat := by
  have hlo := lo.isLt
  have hhi := hi.isLt
  have hone : timer_uptime lo hi = hi.setWidth 64 <<< 32 ||| lo.setWidth 64 := BitVec.mul_one _
  have hlo' : lo.toNat % 2 ^ 64 = lo.toNat := Nat.mod_eq_of_lt (by omega)
  have hhi' : hi.toNat % 2 ^ 64 = hi.toNat := Nat.mod_eq_of_lt (by omega)
  have hshift : hi.toNat <<< 32 % 2 ^ 64 = hi.toNat <<< 32 := by
    rw [Nat.shiftLeft_eq]
    exact Nat.mod_eq_of_lt (by omega)
  rw [hone, BitVec.toNat_or, BitVec.toNat_shiftLeft, BitVec.toNat_setWidth, BitVec.toNat_setWidth,
    hlo', hhi', hshift, ← Nat.shiftLeft_add_eq_or_of_lt hlo, Nat.shiftLeft_eq]

/-- The high word is from the second load, the low word from the first. -/
theorem Call.uptime_toNat {t₁ t₂ : ℕ} (h : Call r t₁ t₂) :
    (uptime r t₁ t₂).toNat = (r.st t₂).mtime.toNat / 2 ^ 32 * 2 ^ 32 +
      (r.st t₁).mtime.toNat % 2 ^ 32 := by
  obtain ⟨a₁, a₂, h₁, h₂, -⟩ := h
  have hlt := (r.st t₂).mtime.isLt
  rw [uptime, timer_uptime_toNat, h₁.low, h₂.high, BitVec.extractLsb'_toNat,
    BitVec.extractLsb'_toNat, Nat.shiftRight_eq_div_pow, Nat.shiftRight_zero]
  have hhigh : (r.st t₂).mtime.toNat / 2 ^ 32 % 2 ^ 32 = (r.st t₂).mtime.toNat / 2 ^ 32 :=
    Nat.mod_eq_of_lt (by omega)
  rw [hhigh]

/-! ## The counter -/

/-- The timer counts the cycles. -/
theorem mtime_add (t d : ℕ) : (r.st (t + d)).mtime = (r.st t).mtime + BitVec.ofNat 64 d := by
  induction d with
  | zero => simp
  | succ d ih =>
      have hnext : (r.st (t + d + 1)).mtime = (r.st (t + d)).mtime + 1 := by
        rw [r.step (t + d)]
        rfl
      rw [← Nat.add_assoc, hnext, ih, BitVec.ofNat_add, BitVec.add_assoc]
      rfl

/-- It counts the cycles, as long as it does not wrap. -/
theorem NoWrap.mtime_toNat {t₁ t₂ : ℕ} (h : NoWrap r t₁ t₂) (hle : t₁ ≤ t₂) :
    (r.st t₂).mtime.toNat = (r.st t₁).mtime.toNat + (t₂ - t₁) := by
  have hadd := congrArg BitVec.toNat (mtime_add (r := r) t₁ (t₂ - t₁))
  rw [show t₁ + (t₂ - t₁) = t₂ by omega, BitVec.toNat_add, BitVec.toNat_ofNat] at hadd
  unfold NoWrap at h
  omega

/-- The beginning of a time without carry is without carry. -/
theorem NoWrap.left {t₁ t₂ t₃ : ℕ} (h : NoWrap r t₁ t₃) (hle : t₂ ≤ t₃) : NoWrap r t₁ t₂ := by
  unfold NoWrap at h ⊢
  omega

/-- The end of a time without carry is without carry. -/
theorem NoWrap.right {t₁ t₂ t₃ : ℕ} (h : NoWrap r t₁ t₃) (h₁ : t₁ ≤ t₂) (h₂ : t₂ ≤ t₃) :
    NoWrap r t₂ t₃ := by
  have hcount := (h.left h₂).mtime_toNat h₁
  unfold NoWrap at h ⊢
  omega

/-- The loads of a call come one after the other. -/
theorem Call.lt {t₁ t₂ : ℕ} (h : Call r t₁ t₂) : t₁ < t₂ := by
  obtain ⟨a₁, a₂, -, h₂, hle⟩ := h
  have := h₂.later
  omega

/-! ## Two halves of different values -/

/-- **A call is untorn** if and only if the low half has not wrapped between its loads. -/
theorem between_iff {t₁ t₂ : ℕ} (h : Call r t₁ t₂) (hruns : NoWrap r t₁ t₂) :
    ((r.st t₁).mtime ≤ uptime r t₁ t₂ ∧ uptime r t₁ t₂ ≤ (r.st t₂).mtime) ↔
      (r.st t₁).mtime.toNat % 2 ^ 32 ≤ ((r.st t₁).mtime.toNat + (t₂ - t₁)) % 2 ^ 32 := by
  have hcount := hruns.mtime_toNat h.lt.le
  rw [BitVec.le_def, BitVec.le_def, h.uptime_toNat, ← hcount]
  have h1 := Nat.div_add_mod (r.st t₁).mtime.toNat (2 ^ 32)
  have h2 := Nat.div_add_mod (r.st t₂).mtime.toNat (2 ^ 32)
  have hdiv : (r.st t₁).mtime.toNat / 2 ^ 32 ≤ (r.st t₂).mtime.toNat / 2 ^ 32 :=
    Nat.div_le_div_right (by omega)
  constructor
  · rintro ⟨-, hle⟩
    omega
  · intro hle
    omega

/-- **Uptime reads of a run**: every call is untorn, and the calls never go backwards, if and
only if the low half never wraps between the two loads of a call. -/
theorem untorn_iff (r : machine.Run) :
    Untorn r ↔ ∀ t₁ t₂, Call r t₁ t₂ → NoWrap r t₁ t₂ →
      (r.st t₁).mtime.toNat % 2 ^ 32 ≤ ((r.st t₁).mtime.toNat + (t₂ - t₁)) % 2 ^ 32 := by
  constructor
  · intro h t₁ t₂ hcall hruns
    exact (between_iff hcall hruns).mp (h.between t₁ t₂ hcall hruns)
  · intro h
    have hbetween : ∀ t₁ t₂, Call r t₁ t₂ → NoWrap r t₁ t₂ →
        (r.st t₁).mtime ≤ uptime r t₁ t₂ ∧ uptime r t₁ t₂ ≤ (r.st t₂).mtime :=
      fun t₁ t₂ hcall hruns => (between_iff hcall hruns).mpr (h t₁ t₂ hcall hruns)
    refine ⟨hbetween, fun t₁ t₂ t₃ t₄ h₁ h₂ hlt hruns => ?_⟩
    have hlt₁ := h₁.lt
    have hlt₂ := h₂.lt
    have hmid := hruns.right hlt₁.le (by omega)
    have hend := hruns.right (by omega) hlt₂.le
    -- the first call is over before the second one begins
    have hle := (hmid.left hlt₂.le).mtime_toNat hlt.le
    calc uptime r t₁ t₂ ≤ (r.st t₂).mtime := (hbetween t₁ t₂ h₁ (hruns.left (by omega))).2
      _ ≤ (r.st t₃).mtime := by rw [BitVec.le_def]; omega
      _ ≤ uptime r t₃ t₄ := (hbetween t₃ t₄ h₂ hend).1

/-! ### A wrap between the loads -/

/-- A master that loads the low half in cycle 1 and the high half in cycle 3. -/
def calling (t : ℕ) : Out where
  ar := ⟨decide (t = 0 ∨ t = 2), { addr := if t = 0 then RTC_MMIO else rtcHigh }⟩
  rReady := true

/-- The low half is loaded when it is about to wrap. -/
def wrapping : machine.Run := machine.run ⟨0xfffffffe, 0⟩ trivial calling

/-- The two loads are a call of the program. -/
theorem wrapping_call : Call wrapping 1 3 := by
  refine ⟨0, 2, ⟨by decide, rfl, by decide, by decide, ?_⟩, ⟨by decide, rfl, by decide, by decide, ?_⟩,
    by decide⟩
  · intro u h1 h2
    omega
  · intro u h1 h2
    omega

/-- In these cycles nothing wraps. -/
theorem wrapping_noWrap : NoWrap wrapping 1 3 := by
  unfold NoWrap
  decide

/-- The value is `0x1ffffffff`, and `mtime` is `0x100000001`. -/
theorem wrapping_torn : ¬ ∀ r : machine.Run, Untorn r := by
  intro h
  have hle := ((h wrapping).between 1 3 wrapping_call wrapping_noWrap).2
  exact absurd hle (by decide)

end CLINT

end Bailuwan
