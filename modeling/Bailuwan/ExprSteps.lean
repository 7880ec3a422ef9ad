/-
# The arithmetic steps of an evaluation

`eval` computes on `uint32_t`, where C gives every step a result but divisions by zero and
shifts by the width and more.  Semantics can be made to keep the steps that lead to a value
(`Semantics.traced`), without a change to the values (`expr_traced`).

Divisors are looked at before they are used, and shift amounts are not: all steps of an
evaluation are defined if and only if every right operand of a shift has a value below 32 in
the arithmetic (`arithmeticDefined_iff`).
-/
import Bailuwan.ExprSyntax
import Bailuwan.ExprTree

namespace Bailuwan

namespace Sdb

open OperatorReading

/-! ## Steps -/

/-- An operator with its operands and its result. -/
inductive Step (V : Type)
  | unary (type : TokenType) (val res : V)
  | binary (type : TokenType) (val1 val2 res : V)

section Traced

variable {V : Type} (S : Semantics V)

/-- Values with the steps that lead to them. -/
def Semantics.traced : Semantics (V × List (Step V)) where
  number str := (S.number str).map (Option.map fun v => (v, []))
  register str := (S.register str).map (Option.map fun v => (v, []))
  unary type v :=
    (S.unary type v.1).map (Option.map fun res => (res, v.2 ++ [.unary type v.1 res]))
  binary type v w :=
    (S.binary type v.1 w.1).map (Option.map fun res =>
      (res, v.2 ++ w.2 ++ [.binary type v.1 w.1 res]))

variable {S} {r x y : Reading Token} {op : Token} {dropped : List Token} {e : List Char}

/-- The value without the steps. -/
def untraced (res : Except Fault (Option (V × List (Step V)))) : Except Fault (Option V) :=
  res.map (Option.map Prod.fst)

/-- The value does not depend on the steps that are noted. -/
theorem untraced_map {f : V → V × List (Step V)} (hf : ∀ v, (f v).1 = v)
    (res : Except Fault (Option V)) : untraced (res.map (Option.map f)) = res := by
  cases res with
  | error fault => rfl
  | ok v =>
      cases v with
      | none => rfl
      | some v =>
          show Except.ok (some (f v).1) = _
          rw [hf]

/-- **The steps are kept on the side.** -/
theorem evalReading_traced (r : Reading Token) :
    untraced (evalReading S.traced r) = evalReading S r := by
  induction r with
  | nothing => rfl
  | leaf t =>
      rw [evalReading, evalReading]
      split_ifs
      · exact untraced_map (fun _ => rfl) _
      · exact untraced_map (fun _ => rfl) _
      · rfl
  | paren r ih => exact ih
  | un dropped op r ih =>
      rw [evalReading, evalReading, ← ih]
      cases evalReading S.traced r with
      | error fault => rfl
      | ok v =>
          cases v with
          | none => rfl
          | some v => exact untraced_map (fun _ => rfl) _
  | bin x op y ihx ihy =>
      rw [evalReading, evalReading, ← ihx, ← ihy]
      cases evalReading S.traced x with
      | error fault => rfl
      | ok v =>
          cases v with
          | none => rfl
          | some v =>
              show untraced (evalReading S.traced y >>= _) = untraced (evalReading S.traced y) >>= _
              cases evalReading S.traced y with
              | error fault => rfl
              | ok w =>
                  cases w with
                  | none => rfl
                  | some w => exact untraced_map (fun _ => rfl) _

/-- An expression has the same value with and without steps. -/
theorem expr_traced (S : Semantics V) (e : List Char) : untraced (expr S.traced e) = expr S e := by
  rw [expr_eq, expr_eq]
  cases tokenize e with
  | none => rfl
  | some ts => exact evalReading_traced _

end Traced

/-! ## Values with their steps -/

section Steps

variable {V : Type} {S : Semantics V} {r x y : Reading Token} {op : Token}
  {dropped : List Token} {v : V} {steps : List (Step V)}

/-- A value is made of a value. -/
theorem map_eq_some {W : Type} {f : V → W} {res : Except Fault (Option V)} {w : W}
    (h : res.map (Option.map f) = .ok (some w)) : ∃ v, res = .ok (some v) ∧ f v = w := by
  cases res with
  | error fault => cases h
  | ok v =>
      cases v with
      | none => cases h
      | some v =>
          cases h
          exact ⟨v, rfl, rfl⟩

/-- An operand has no steps. -/
theorem steps_leaf {t : Token} (h : evalReading S.traced (.leaf t) = .ok (some (v, steps))) :
    steps = [] := by
  rw [evalReading] at h
  split_ifs at h
  · obtain ⟨w, -, heq⟩ := map_eq_some h
    cases heq
    rfl
  · obtain ⟨w, -, heq⟩ := map_eq_some h
    cases heq
    rfl
  · cases h

/-- A unary operator comes after the steps of its operand. -/
theorem steps_un (h : evalReading S.traced (.un dropped op r) = .ok (some (v, steps))) :
    ∃ a sa, evalReading S.traced r = .ok (some (a, sa)) ∧ S.unary op.type a = .ok (some v) ∧
      steps = sa ++ [.unary op.type a v] := by
  obtain ⟨⟨a, sa⟩, ha⟩ := evalReading_of_un h
  rw [evalReading_un ha] at h
  obtain ⟨w, hw, heq⟩ := map_eq_some h
  cases heq
  exact ⟨a, sa, ha, hw, rfl⟩

/-- A binary operator comes after the steps of both operands. -/
theorem steps_bin (h : evalReading S.traced (.bin x op y) = .ok (some (v, steps))) :
    ∃ a sa b sb, evalReading S.traced x = .ok (some (a, sa)) ∧
      evalReading S.traced y = .ok (some (b, sb)) ∧ S.binary op.type a b = .ok (some v) ∧
      steps = sa ++ sb ++ [.binary op.type a b v] := by
  obtain ⟨⟨⟨a, sa⟩, ha⟩, ⟨b, sb⟩, hb⟩ := evalReading_of_bin h
  rw [evalReading_bin ha hb] at h
  obtain ⟨w, hw, heq⟩ := map_eq_some h
  cases heq
  exact ⟨a, sa, b, sb, ha, hb, hw, rfl⟩

/-- What is traced has a value. -/
theorem value_of_traced (h : evalReading S.traced r = .ok (some (v, steps))) :
    evalReading S r = .ok (some v) := by
  rw [← evalReading_traced, h]
  rfl

end Steps

/-! ## Defined steps -/

/-- `<<`, `>>` and `>>>` -/
def TokenType.isShift : TokenType → Bool
  | shl | lshr | ashr => true
  | _ => false

/-- The step is defined in C, and the conversions to signed numbers and back in negations and
in `>>>` give the result of two's complement. -/
def Step.Defined : Step Word → Prop
  | .unary .unaryMinus val res => res.toNat = (2 ^ 32 - val.toNat) % 2 ^ 32
  | .binary .shl _ val2 _ | .binary .lshr _ val2 _ => val2.toNat < 32
  | .binary .ashr val1 val2 res => val2.toNat < 32 ∧ res.toInt = val1.toInt / 2 ^ val2.toNat
  | .binary .div _ val2 _ | .binary .rem _ val2 _ => val2 ≠ 0
  | _ => True

/-- If the expression has a value then the steps to it are defined. -/
def ArithmeticDefined (d : Debugger) (e : List Char) : Prop :=
  ∀ v steps, Sdb.expr d.semantics.traced e = .ok (some (v, steps)) → ∀ s ∈ steps, s.Defined

/-! ## The condition -/

namespace Debugger

variable (d : Debugger)

/-- The word that the debugger reads at an address, if it does. -/
def loaded (a : ℕ) : Option ℕ :=
  match d.semantics.unary .unaryDeref (BitVec.ofNat 32 a) with
  | .ok (some v) => some v.toNat
  | _ => none

/-- The number that a token stands for, if it does. -/
def leafNumber (t : Token) : Except Trouble ℕ :=
  match evalReading d.semantics (.leaf t) with
  | .ok (some v) => .ok v.toNat
  | _ => .error .unspecified

/-- The value of a reading in the arithmetic. -/
def readingValue : Reading Token → Except Trouble ℕ
  | .nothing => .error .unspecified
  | .leaf t => d.leafNumber t
  | .paren r => readingValue r
  | .un _ op r => readingValue r >>= unaryValue d.loaded op.type
  | .bin x op y => readingValue x >>= fun a => readingValue y >>= binaryValue op.type a

/-- No shift is by 32 or more. -/
def ShiftsInRange : Reading Token → Prop
  | .nothing => True
  | .leaf _ => True
  | .paren r => ShiftsInRange r
  | .un _ _ r => ShiftsInRange r
  | .bin x op y => ShiftsInRange x ∧ ShiftsInRange y ∧
      (op.type.isShift = true → ∀ n, d.readingValue y = .ok n → n < 32)

variable {d} {type : TokenType} {a b v : Word} {r : Reading Token} {steps : List (Step Word)}

/-- The step of a unary operator gives its value. -/
theorem unaryValue_loaded (h : d.semantics.unary type a = .ok (some v)) :
    unaryValue d.loaded type a.toNat = .ok v.toNat := by
  by_cases hd : type = .unaryDeref
  · subst hd
    rw [unaryValue, loaded, BitVec.ofNat_toNat, BitVec.setWidth_eq, h]
    rfl
  · have hagrees := d.unary_agrees type a
    rw [h] at hagrees
    cases type with
    | unaryNot | unaryLnot | unaryMinus =>
        obtain ⟨w, hw, hn⟩ := hagrees.1 _ rfl
        cases hw
        rw [hn]
        rfl
    | unaryDeref => exact absurd rfl hd
    | _ => cases d <;> cases h

/-- No unary operator is undefined. -/
theorem unary_defined (h : d.semantics.unary type a = .ok (some v)) :
    (Step.unary type a v).Defined := by
  by_cases hm : type = .unaryMinus
  · subst hm
    have hvalue := unaryValue_loaded h
    exact (Except.ok.inj hvalue).symm
  · cases type <;> trivial

/-- The step of a binary operator gives its value; a shift needs an amount below 32. -/
theorem binaryValue_eq (h : d.semantics.binary type a b = .ok (some v))
    (hshift : type.isShift = true → b.toNat < 32) :
    binaryValue type a.toNat b.toNat = .ok v.toNat := by
  have hagrees := d.binary_agrees type a b
  rw [h] at hagrees
  cases hvalue : binaryValue type a.toNat b.toNat with
  | ok n =>
      obtain ⟨w, hw, rfl⟩ := hagrees.1 n hvalue
      cases hw
      rfl
  | error trouble =>
      cases trouble with
      | zeroDivisor => exact absurd (hagrees.2 hvalue) (by simp)
      | unspecified =>
          -- the type is no operator, or the shift goes too far
          cases type with
          | shl | lshr | ashr =>
              rw [binaryValue, if_pos (hshift rfl)] at hvalue
              cases hvalue
          | div | rem =>
              rw [binaryValue] at hvalue
              split_ifs at hvalue
              cases hvalue
          | num | reg | unaryNot | unaryLnot | unaryMinus | unaryDeref | lpar | rpar =>
              cases d <;> cases h
          | _ => cases hvalue

/-- A binary step with a result is defined, unless it is a shift that goes too far. -/
theorem binary_defined_iff (h : d.semantics.binary type a b = .ok (some v)) :
    (Step.binary type a b v).Defined ↔ (type.isShift = true → b.toNat < 32) := by
  have hbin : evalBinary (match d with
    | npc m => m.wideShift
    | nemu m => m.wideShift) type a b = .ok (some v) := by
    cases d <;> exact h
  cases type with
  | shl | lshr => exact ⟨fun hdef _ => hdef, fun hlt => hlt rfl⟩
  | ashr =>
      refine ⟨fun hdef _ => hdef.1, fun hlt => ⟨hlt rfl, ?_⟩⟩
      rw [evalBinary, if_pos (hlt rfl)] at hbin
      cases hbin
      rw [BitVec.toInt_sshiftRight, Int.shiftRight_eq_div_pow]
      norm_cast
  | div | rem =>
      refine ⟨fun _ hs => absurd hs (by decide), fun _ hb => ?_⟩
      rw [evalBinary, if_pos hb] at hbin
      cases hbin
  | _ => exact ⟨fun _ hs => absurd hs (by decide), fun _ => trivial⟩

/-- **The steps of a reading** are defined if and only if its shifts are in range, and then
its value is the one of the arithmetic. -/
theorem steps_defined_iff
    (h : evalReading d.semantics.traced r = .ok (some (v, steps))) :
    ((∀ s ∈ steps, s.Defined) ↔ d.ShiftsInRange r) ∧
      (d.ShiftsInRange r → d.readingValue r = .ok v.toNat) := by
  induction r generalizing v steps with
  | nothing => cases h
  | leaf t =>
      rw [steps_leaf h]
      refine ⟨⟨fun _ => trivial, fun _ s hs => by cases hs⟩, fun _ => ?_⟩
      rw [readingValue, leafNumber, value_of_traced h]
  | paren r ih => exact ih h
  | un dropped op r ih =>
      obtain ⟨a, sa, ha, hv, rfl⟩ := steps_un h
      obtain ⟨hiff, hvalue⟩ := ih ha
      refine ⟨?_, fun hr => ?_⟩
      · rw [List.forall_mem_append, List.forall_mem_singleton, hiff, ShiftsInRange]
        exact and_iff_left (unary_defined hv)
      · rw [readingValue, hvalue hr]
        exact unaryValue_loaded hv
  | bin x op y ihx ihy =>
      obtain ⟨a, sa, b, sb, ha, hb, hv, rfl⟩ := steps_bin h
      obtain ⟨hx, hxv⟩ := ihx ha
      obtain ⟨hy, hyv⟩ := ihy hb
      have hstep := binary_defined_iff hv
      -- the right operand is a number of the arithmetic as soon as its own shifts are in range
      have hamount : d.ShiftsInRange y →
          ((op.type.isShift = true → ∀ n, d.readingValue y = .ok n → n < 32) ↔
            (op.type.isShift = true → b.toNat < 32)) := by
        intro hry
        rw [hyv hry]
        simp
      refine ⟨?_, fun hr => ?_⟩
      · rw [List.forall_mem_append, List.forall_mem_append, List.forall_mem_singleton, hx, hy,
          hstep, ShiftsInRange]
        constructor
        · rintro ⟨⟨hrx, hry⟩, hs⟩
          exact ⟨hrx, hry, (hamount hry).mpr hs⟩
        · rintro ⟨hrx, hry, hs⟩
          exact ⟨⟨hrx, hry⟩, (hamount hry).mp hs⟩
      · obtain ⟨hrx, hry, hs⟩ := hr
        rw [readingValue, hxv hrx, hyv hry]
        exact binaryValue_eq hv ((hamount hry).mp hs)

end Debugger

/-- **The arithmetic of an expression with a value is defined** if and only if no shift is by
32 or more. -/
theorem arithmeticDefined_iff {d : Debugger} {e : List Char} {v : Word}
    (h : d.expr e = .ok (some v)) : ArithmeticDefined d e ↔
      ∀ ts, tokenize e = some ts → d.ShiftsInRange (descend kind ts) := by
  rw [Debugger.expr, ← expr_traced] at h
  obtain ⟨⟨w, steps⟩, htraced, -⟩ := map_eq_some h
  cases hts : tokenize e with
  | none =>
      rw [expr_eq, hts] at htraced
      cases htraced
  | some ts =>
      have hr := htraced
      rw [expr_of_tokenize hts] at hr
      simp only [Option.some.injEq, forall_eq']
      rw [← (Debugger.steps_defined_iff hr).1]
      constructor
      · intro hdef
        exact hdef w steps htraced
      · intro hdef w' steps' h'
        rw [htraced] at h'
        cases h'
        exact hdef

/-- `1 << 3` -/
theorem arithmeticDefined_shift : ArithmeticDefined (.npc zeroNpc) ['1', '<', '<', '3'] ↔
    ∀ ts, tokenize ['1', '<', '<', '3'] = some ts →
      (Debugger.npc zeroNpc).ShiftsInRange (descend kind ts) :=
  arithmeticDefined_iff (v := 8) rfl

/-- `1 << 32` shifts by the width. -/
theorem wideShift_undefined : ¬ ArithmeticDefined (.npc zeroNpc) ['1', '<', '<', '3', '2'] ∧
    ¬ ArithmeticDefined (.nemu zeroNemu) ['1', '<', '<', '3', '2'] := by
  constructor
  · intro h
    have hstep : (32 : Word).toNat < 32 :=
      h 0 [.binary .shl 1 32 0] rfl _ (List.mem_singleton.mpr rfl)
    exact absurd hstep (by decide)
  · intro h
    have hstep : (32 : Word).toNat < 32 :=
      h 0 [.binary .shl 1 32 0] rfl _ (List.mem_singleton.mpr rfl)
    exact absurd hstep (by decide)

end Sdb

end Bailuwan
