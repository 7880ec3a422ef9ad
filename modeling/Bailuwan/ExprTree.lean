/-
# Expression trees

An expression is a tree of numbers, registers, parentheses and operators.  `Tree.value` is
its value in 32-bit unsigned arithmetic, over the natural numbers; it is unspecified where a
register does not exist, an address is not aligned or not in memory, or a shift goes too far.
`Tree.tokens` writes the tree with the parentheses that precedence and left associativity in
C require.

The tokens of a tree are read as the tree (`Tree.canonical`), and its reading evaluates to
its value (`Tree.evalReading_reading`); so `expr` gives the value of every tree from each of
its texts (`expr_printed`).
-/
import Bailuwan.ExprPrinting

namespace Bailuwan

namespace Sdb

open OperatorReading

/-! ## Arithmetic -/

/-- Why an expression has no value. -/
inductive Trouble
  | zeroDivisor
  | unspecified
  deriving DecidableEq, Repr

/-- A truth value as a number. -/
def truth (p : Prop) [Decidable p] : ℕ := if p then 1 else 0

/-- The number of 32 bits as a signed one. -/
def signed (a : ℕ) : ℤ := if a < 2 ^ 31 then a else a - 2 ^ 32

/-- Binary operators on numbers below `2 ^ 32`; those of C but `>>>`, which shifts the sign
in, and `&&` and `||` after both operands. -/
def binaryValue (type : TokenType) (a b : ℕ) : Except Trouble ℕ :=
  match type with
  | .eq => .ok (truth (a = b))
  | .ne => .ok (truth (a ≠ b))
  | .le => .ok (truth (a ≤ b))
  | .lt => .ok (truth (a < b))
  | .ge => .ok (truth (b ≤ a))
  | .gt => .ok (truth (b < a))
  | .add => .ok ((a + b) % 2 ^ 32)
  | .sub => .ok ((a + (2 ^ 32 - b)) % 2 ^ 32)
  | .mul => .ok (a * b % 2 ^ 32)
  | .div => if b = 0 then .error .zeroDivisor else .ok (a / b)
  | .rem => if b = 0 then .error .zeroDivisor else .ok (a % b)
  | .and => .ok (a &&& b)
  | .or => .ok (a ||| b)
  | .xor => .ok (a ^^^ b)
  | .shl => if b < 32 then .ok (a * 2 ^ b % 2 ^ 32) else .error .unspecified
  | .lshr => if b < 32 then .ok (a / 2 ^ b) else .error .unspecified
  | .ashr => if b < 32 then .ok (signed a / 2 ^ b % 2 ^ 32).toNat else .error .unspecified
  | .land => .ok (truth (a ≠ 0 ∧ b ≠ 0))
  | .lor => .ok (truth (a ≠ 0 ∨ b ≠ 0))
  | _ => .error .unspecified

/-- Unary operators on numbers below `2 ^ 32`, with the words of the memory. -/
def unaryValue (memory : ℕ → Option ℕ) (type : TokenType) (a : ℕ) : Except Trouble ℕ :=
  match type with
  | .unaryNot => .ok (2 ^ 32 - 1 - a)
  | .unaryLnot => .ok (truth (a = 0))
  | .unaryMinus => .ok ((2 ^ 32 - a) % 2 ^ 32)
  | .unaryDeref => (memory a).elim (.error .unspecified) .ok
  | _ => .error .unspecified

/-- A result that agrees with a value. -/
def Agrees (res : Except Fault (Option Word)) (value : Except Trouble ℕ) : Prop :=
  (∀ n, value = .ok n → ∃ v : Word, res = .ok (some v) ∧ v.toNat = n) ∧
    (value = .error .zeroDivisor → res = .ok none)

/-- A word agrees with its value. -/
theorem agrees_ok {v : Word} {n : ℕ} (h : v.toNat = n) : Agrees (.ok (some v)) (.ok n) := by
  constructor
  · rintro m hm
    cases hm
    exact ⟨v, rfl, h⟩
  · intro hz
    cases hz

/-- What C leaves open agrees with everything. -/
theorem agrees_unspecified (res : Except Fault (Option Word)) :
    Agrees res (.error .unspecified) := by
  constructor
  · intro n hn
    cases hn
  · intro hz
    cases hz

/-- A zero divisor is reported. -/
theorem agrees_zeroDivisor : Agrees (.ok none) (.error .zeroDivisor) := by
  constructor
  · intro n hn
    cases hn
  · intro _
    rfl

/-- A condition is 1 or 0. -/
theorem toNat_ofCond (b : Bool) : (ofCond b).toNat = if b then 1 else 0 := by
  cases b <;> rfl

/-- The signed number of a word. -/
theorem toInt_eq_signed (v : Word) : v.toInt = signed v.toNat := by
  have := v.isLt
  rw [BitVec.toInt_eq_toNat_cond, signed]
  split_ifs <;> omega

/-- An unsigned value is the signed one modulo 2^32. -/
theorem toNat_eq_toInt_emod (v : Word) : v.toNat = (v.toInt % 2 ^ 32).toNat := by
  have := v.isLt
  rw [BitVec.toInt_eq_toNat_cond]
  split_ifs <;> omega

/-- The word 0 is the value 0. -/
theorem eq_zero_iff {v : Word} : v = 0 ↔ v.toNat = 0 := by
  rw [← BitVec.toNat_inj]
  rfl

/-- Division by zero is the failure. -/
theorem agrees_divide {w q : Word} {n : ℕ} (h : q.toNat = n) :
    Agrees (.ok (if w = 0 then none else some q))
      (if w.toNat = 0 then .error .zeroDivisor else .ok n) := by
  by_cases hw : w = 0
  · rw [if_pos hw, if_pos (eq_zero_iff.mp hw)]
    exact agrees_zeroDivisor
  · rw [if_neg hw, if_neg (mt eq_zero_iff.mpr hw)]
    exact agrees_ok h

/-- C leaves shifts by the width and more open. -/
theorem agrees_shift {w q wide : Word} {n : ℕ} (h : q.toNat = n) :
    Agrees (.ok (some (if w.toNat < 32 then q else wide)))
      (if w.toNat < 32 then .ok n else .error .unspecified) := by
  by_cases hw : w.toNat < 32
  · rw [if_pos hw, if_pos hw]
    exact agrees_ok h
  · rw [if_neg hw, if_neg hw]
    exact agrees_unspecified _

/-- **The binary operators** are those of the arithmetic. -/
theorem evalBinary_agrees (wide : TokenType → Word → Word → Word) {type : TokenType}
    (v w : Word) :
    Agrees (evalBinary wide type v w) (binaryValue type v.toNat w.toNat) := by
  cases type with
  | eq => exact agrees_ok (by simp [toNat_ofCond, truth, BitVec.toNat_inj])
  | ne => exact agrees_ok (by simp [toNat_ofCond, truth, BitVec.toNat_inj])
  | le => exact agrees_ok (by simp [toNat_ofCond, truth, BitVec.ule])
  | lt => exact agrees_ok (by simp [toNat_ofCond, truth, BitVec.ult])
  | ge => exact agrees_ok (by simp [toNat_ofCond, truth, BitVec.ule])
  | gt => exact agrees_ok (by simp [toNat_ofCond, truth, BitVec.ult])
  | add => exact agrees_ok (BitVec.toNat_add v w)
  | sub => exact agrees_ok (by rw [BitVec.toNat_sub, Nat.add_comm])
  | mul => exact agrees_ok (BitVec.toNat_mul v w)
  | and => exact agrees_ok (BitVec.toNat_and ..)
  | or => exact agrees_ok (BitVec.toNat_or ..)
  | xor => exact agrees_ok (BitVec.toNat_xor ..)
  | div => exact agrees_divide BitVec.toNat_udiv
  | rem => exact agrees_divide BitVec.toNat_umod
  | shl =>
      apply agrees_shift
      rw [BitVec.toNat_shiftLeft, Nat.shiftLeft_eq]
  | lshr =>
      apply agrees_shift
      rw [BitVec.toNat_ushiftRight, Nat.shiftRight_eq_div_pow]
  | ashr =>
      apply agrees_shift
      rw [toNat_eq_toInt_emod, BitVec.toInt_sshiftRight, toInt_eq_signed,
        Int.shiftRight_eq_div_pow]
      norm_cast
  | land => exact agrees_ok (by simp [toNat_ofCond, truth, ← BitVec.toNat_inj])
  | lor => exact agrees_ok (by simp [toNat_ofCond, truth, ← BitVec.toNat_inj])
  | _ => exact agrees_unspecified _

/-- **The unary operators** are those of the arithmetic, if dereferencing is. -/
theorem evalUnary_agrees (deref : Word → Except Fault (Option Word)) (memory : ℕ → Option ℕ)
    {type : TokenType} (v : Word)
    (hderef : Agrees (deref v) ((memory v.toNat).elim (.error .unspecified) .ok)) :
    Agrees (evalUnary deref type v) (unaryValue memory type v.toNat) := by
  have hv := v.isLt
  cases type with
  | unaryNot => exact agrees_ok (by rw [BitVec.toNat_not])
  | unaryLnot =>
      apply agrees_ok
      by_cases h : v = 0
      · rw [if_pos h, truth, if_pos (eq_zero_iff.mp h)]
        rfl
      · rw [if_neg h, truth, if_neg (mt eq_zero_iff.mpr h)]
        rfl
  | unaryMinus =>
      refine agrees_ok ?_
      rw [BitVec.toNat_ofInt]
      omega
  | unaryDeref => exact hderef
  | _ => exact agrees_unspecified _

/-! ## Numbers -/

/-- A decimal digit is less than 10. -/
theorem digitValue_lt_ten {c : Char} (h : isDigit c = true) : digitValue c < 10 := by
  rw [digitValue, if_pos h]
  have := isDigit_iff.mp h
  omega

/-- A hexadecimal digit is less than 16. -/
theorem digitValue_lt_sixteen {c : Char} (h : isHexDigit c = true) : digitValue c < 16 := by
  have hlower : inRange 'a' 'z' c = true ↔ 97 ≤ c.toNat ∧ c.toNat ≤ 122 := inRange_iff
  have hupper : inRange 'A' 'Z' c = true ↔ 65 ≤ c.toNat ∧ c.toNat ≤ 90 := inRange_iff
  rw [isHexDigit_iff] at h
  simp only [digitValue, isDigit_iff, hlower, hupper]
  split_ifs <;> omega

/-- `strtol` of a text that begins with a digit. -/
theorem strtol_of_digit {c : Char} {r : List Char} (hc : isDigit c = true) {base n : ℕ}
    (hdigits : leadingDigits base (c :: r) ≠ [])
    (hn : ofDigits base (leadingDigits base (c :: r)) = n) (hlt : n < 2 ^ 32) :
    strtol (c :: r) base = some (n : ℤ) := by
  have hspace : isSpace c = false := by
    by_contra hno
    simp only [isSpace, Bool.not_eq_false, Bool.or_eq_true, beq_iff_eq, or_assoc] at hno
    rcases hno with rfl | rfl | rfl | rfl | rfl | rfl <;> exact absurd hc (by decide)
  rw [strtol, List.dropWhile_cons, hspace]
  simp only [Bool.false_eq_true, if_false]
  split
  · rename_i heq
    obtain ⟨rfl, -⟩ := List.cons.inj heq
    exact absurd hc (by decide)
  · rename_i heq
    obtain ⟨rfl, -⟩ := List.cons.inj heq
    exact absurd hc (by decide)
  · rw [if_neg hdigits, hn, Option.map_some]
    exact congrArg some (min_eq_left (by omega))

/-- Decimal digits are the leading characters of a value less than 10. -/
theorem leadingDigits_ten (s : List Char) :
    leadingDigits 10 s = s.takeWhile fun c => decide (digitValue c < 10) := by
  unfold leadingDigits
  split
  · rw [if_neg (by omega)]
  · rfl

namespace Numeral

variable (n : Numeral)

theorem value_lt' : n.value < 2 ^ 32 := n.value_lt

/-- The suffix is no digit. -/
theorem takeWhile_suffix {b : ℕ} (hb : b ≤ 16) :
    n.suffix.toList.takeWhile (fun c => decide (digitValue c < b)) = [] := by
  rcases n.suffix_cases with hu | ⟨u, hu, hu'⟩
  · rw [hu]
    rfl
  · have hval : digitValue u = 30 := by
      rcases isSuffix_iff.mp hu' with rfl | rfl <;> decide
    rw [hu, List.takeWhile_cons, hval, if_neg (by simp; omega)]

/-- The suffix ends the digits of a number. -/
theorem takeWhile_digits {b : ℕ} (hb : b ≤ 16) (h : ∀ c ∈ n.digits, digitValue c < b) :
    (n.digits ++ n.suffix.toList).takeWhile (fun c => decide (digitValue c < b)) = n.digits := by
  rw [List.takeWhile_append_of_pos (by simpa using h), n.takeWhile_suffix hb, List.append_nil]

/-- `strtoul` reads the digits. -/
theorem leadingDigits_text : leadingDigits n.base n.text = n.digits := by
  cases hx : n.hex with
  | some x =>
      have hrun := n.takeWhile_digits le_rfl fun c hc =>
        digitValue_lt_sixteen (n.digits_of_hex hx c hc)
      rw [base, hx, n.text_of_hex hx, leadingDigits]
      simp only [Option.isSome_some, if_true, hrun]
      rw [if_pos ⟨trivial, n.hex_x x hx, n.digits_ne⟩]
  | none =>
      rw [base, hx, n.text_of_dec hx]
      simp only [Option.isSome_none, Bool.false_eq_true, if_false]
      rw [leadingDigits_ten]
      exact n.takeWhile_digits (by omega) fun c hc => digitValue_lt_ten (n.digits_of_dec hx c hc)

/-- Hexadecimal numbers are recognised by their texts. -/
theorem base16_iff : (n.text[0]? = some '0' ∧ (n.text[1]? = some 'x' ∨ n.text[1]? = some 'X')) ↔
    n.hex.isSome = true := by
  cases hx : n.hex with
  | some x =>
      rw [n.text_of_hex hx]
      rcases n.hex_x x hx with rfl | rfl <;> simp
  | none =>
      simp only [Option.isSome_none, Bool.false_eq_true, iff_false]
      rintro ⟨-, h⟩
      have hsecond := n.second_ne_x hx (s := []) (by intro c hc; cases hc)
      rw [List.append_nil] at hsecond
      have htail : n.text[1]? = (n.digits.tail ++ n.suffix.toList).head? := by
        rw [n.text_of_dec hx]
        cases hd : n.digits with
        | nil => exact absurd hd n.digits_ne
        | cons d ds => simp [List.head?_eq_getElem?]
      rw [htail] at h
      rcases h with h | h
      · exact (hsecond _ h).1 rfl
      · exact (hsecond _ h).2 rfl

/-- **A number token** has the value of the number. -/
theorem evalNumber_text : evalNumber n.text = .ok (some (BitVec.ofNat 32 n.value)) := by
  have hbase : (if n.text[0]? = some '0' ∧ (n.text[1]? = some 'x' ∨ n.text[1]? = some 'X') then 16
      else 10) = n.base := by
    rw [base]
    exact if_congr n.base16_iff rfl rfl
  obtain ⟨c, r, htext, hdigit⟩ := n.exists_text_eq
  have hlead := n.leadingDigits_text
  have hstr : strtol n.text n.base = some (n.value : ℤ) := by
    rw [htext] at hlead ⊢
    exact strtol_of_digit hdigit (by rw [hlead]; exact n.digits_ne) (by rw [hlead]; rfl)
      n.value_lt'
  rw [evalNumber]
  simp only [hbase, hstr, Option.map_some]
  rw [BitVec.ofInt_natCast]

end Numeral

/-! ## Trees -/

/-- A binary operator of the tokenizer. -/
abbrev BinaryOp := { type : TokenType // type.isBinary = true }

/-- A unary operator of the tokenizer. -/
abbrev UnaryOp := { type : TokenType // type.isUnary = true }

/-- An expression as it is printed. -/
inductive Tree
  | num (n : Numeral)
  | reg (r : RegName)
  | paren (t : Tree)
  | un (op : UnaryOp) (t : Tree)
  | bin (op : BinaryOp) (l r : Tree)

/-- The levels of precedence of C; `>>>` is one of the shifts. -/
def cLevel : TokenType → ℕ
  | .lor => 1
  | .land => 2
  | .or => 3
  | .xor => 4
  | .and => 5
  | .eq | .ne => 6
  | .lt | .le | .gt | .ge => 7
  | .shl | .lshr | .ashr => 8
  | .add | .sub => 9
  | .mul | .div | .rem => 10
  | .unaryNot | .unaryLnot | .unaryMinus | .unaryDeref => 11
  | .num | .reg | .lpar | .rpar => 12

namespace Tree

/-- The level of the operator on top. -/
def level : Tree → ℕ
  | un op _ => cLevel op
  | bin op _ _ => cLevel op
  | _ => 12

/-- No operand of a unary operator starts with one. -/
def Unstacked : Tree → Prop
  | num _ => True
  | reg _ => True
  | paren t => t.Unstacked
  | un _ t => t.level ≠ 11 ∧ t.Unstacked
  | bin _ l r => l.Unstacked ∧ r.Unstacked

/-- Put in parentheses where it is required. -/
def parenthesize (required : Bool) (l : List Token) : List Token :=
  if required then ⟨.lpar, []⟩ :: (l ++ [⟨.rpar, []⟩]) else l

/-- The tokens of a tree, with the parentheses that precedence and left associativity
require. -/
def tokens : Tree → List Token
  | num n => [⟨.num, n.text⟩]
  | reg r => [⟨.reg, r.text⟩]
  | paren t => parenthesize true t.tokens
  | un op t => ⟨op, []⟩ :: parenthesize (decide (t.level < 11)) t.tokens
  | bin op l r =>
      parenthesize (decide (l.level < cLevel op)) l.tokens ++
        ⟨op, []⟩ :: parenthesize (decide (r.level ≤ cLevel op)) r.tokens

/-- The value, with the values of registers and the words of the memory. -/
def value (register : List Char → Option ℕ) (memory : ℕ → Option ℕ) : Tree → Except Trouble ℕ
  | num n => .ok n.value
  | reg r => (register r.name).elim (.error .unspecified) .ok
  | paren t => t.value register memory
  | un op t => do unaryValue memory op (← t.value register memory)
  | bin op l r => do binaryValue op (← l.value register memory) (← r.value register memory)

/-! ### Tokens and readings -/

/-- A reading in parentheses, if they are needed. -/
def parenthesizeReading (required : Bool) (r : Reading Token) : Reading Token :=
  if required then .paren r else r

/-- The reading of the tokens. -/
def reading : Tree → Reading Token
  | num n => .leaf ⟨.num, n.text⟩
  | reg r => .leaf ⟨.reg, r.text⟩
  | paren t => parenthesizeReading true t.reading
  | un op t => .un [] ⟨op, []⟩ (parenthesizeReading (decide (t.level < 11)) t.reading)
  | bin op l r =>
      .bin (parenthesizeReading (decide (l.level < cLevel op)) l.reading) ⟨op, []⟩
        (parenthesizeReading (decide (r.level ≤ cLevel op)) r.reading)

/-- The kind of what is on top. -/
def topKind : Tree → Kind
  | un _ _ => .unary
  | bin op _ _ => kind ⟨op, []⟩
  | _ => .operand

end Tree

/-- The precedences of the debuggers are those of C. -/
theorem kind_binaryOp (op : BinaryOp) :
    ∃ p, kind ⟨op, []⟩ = .binary p ∧ p + 10 = 10 * cLevel op := by
  obtain ⟨type, h⟩ := op
  cases type <;> first | exact absurd h (by decide) | exact ⟨_, rfl, rfl⟩

/-- The binary operators of C are on the levels up to 10. -/
theorem cLevel_binaryOp (op : BinaryOp) : cLevel op ≤ 10 := by
  obtain ⟨type, h⟩ := op
  cases type <;> first | exact absurd h (by decide) | exact Nat.le_of_ble_eq_true rfl

/-- The unary operators of C are on the level above. -/
theorem cLevel_unaryOp (op : UnaryOp) : cLevel op = 11 := by
  obtain ⟨type, h⟩ := op
  cases type <;> first | exact absurd h (by decide) | rfl

namespace Tree

variable {t l r : Tree}

/-- What is on top binds as tight as its level says. -/
theorem le_prec_topKind {p : ℕ} (h : p + 10 ≤ 10 * t.level) :
    (Kind.binary p).prec ≤ t.topKind.prec := by
  cases t with
  | bin op l r =>
      obtain ⟨q, hq, hlevel⟩ := kind_binaryOp op
      rw [topKind, hq, Kind.binary_le_iff]
      rw [level] at h
      omega
  | _ => exact le_top

/-- An operator that binds tighter in C has the higher precedence. -/
theorem lt_prec_topKind {p : ℕ} (h : p + 10 < 10 * t.level) :
    (Kind.binary p).prec < t.topKind.prec := by
  cases t with
  | bin op l r =>
      obtain ⟨q, hq, hlevel⟩ := kind_binaryOp op
      rw [topKind, hq, Kind.binary_lt_iff]
      rw [level] at h
      omega
  | _ => exact WithTop.coe_lt_top p

/-- In parentheses or not, there is a reading. -/
theorem canonical_parenthesize {k : Kind} {ts : List Token} {x : Reading Token} (required : Bool)
    (h : Canonical kind ts x k) : Canonical kind (parenthesize required ts)
      (parenthesizeReading required x) (if required then .operand else k) := by
  cases required with
  | false => exact h
  | true => exact .paren rfl rfl h

/-- **The tokens of a tree are read as the tree.** -/
theorem canonical (h : t.Unstacked) : Canonical kind t.tokens t.reading t.topKind := by
  induction t with
  | num n => exact .operand rfl
  | reg r => exact .operand rfl
  | paren t ih => exact canonical_parenthesize true (ih h)
  | un op t ih =>
      obtain ⟨hlevel, ht⟩ := h
      have hc := canonical_parenthesize (decide (t.level < 11)) (ih ht)
      have hop : (if decide (t.level < 11) = true then Kind.operand else t.topKind) = .operand := by
        by_cases hlt : t.level < 11
        · rw [if_pos (decide_eq_true hlt)]
        · rw [if_neg (mt of_decide_eq_true hlt)]
          cases t with
          | un op' t => exact absurd (cLevel_unaryOp op') hlevel
          | bin op' l r => exact absurd (cLevel_binaryOp op') (by rw [level] at hlt; omega)
          | _ => rfl
      rw [hop] at hc
      exact .un (kind_unary_iff.mpr op.property) hc
  | bin op l r ihl ihr =>
      obtain ⟨hl, hr⟩ := h
      obtain ⟨p, hp, hlevel⟩ := kind_binaryOp op
      have hcl := canonical_parenthesize (decide (l.level < cLevel op)) (ihl hl)
      have hcr := canonical_parenthesize (decide (r.level ≤ cLevel op)) (ihr hr)
      rw [topKind, hp]
      refine .bin hp hcl hcr ?_ ?_
      · by_cases hreq : l.level < cLevel op
        · rw [if_pos (decide_eq_true hreq)]
          exact le_top
        · rw [if_neg (mt of_decide_eq_true hreq)]
          exact le_prec_topKind (by omega)
      · by_cases hreq : r.level ≤ cLevel op
        · rw [if_pos (decide_eq_true hreq)]
          exact WithTop.coe_lt_top p
        · rw [if_neg (mt of_decide_eq_true hreq)]
          exact lt_prec_topKind (by omega)

end Tree

/-! ## Values of trees -/

namespace Debugger

/-- The value of a register or CSR, if it exists. -/
def register (d : Debugger) (name : List Char) : Option ℕ :=
  match d.semantics.register ('$' :: name) with
  | .ok (some v) => some v.toNat
  | _ => none

/-- The memories of the simulation, or the physical memory of NEMU. -/
def inMemory : Debugger → Word → Bool
  | npc _, a => DUTMemory.inSimMem a
  | nemu m, a => m.inPmem a

/-- The memory that is examined. -/
def bytes : Debugger → Bytes
  | npc m => m.mem
  | nemu m => m.cpu.mem

/-- The word at an address that is aligned and in memory. -/
def memory (d : Debugger) (a : ℕ) : Option ℕ :=
  if a % 4 = 0 ∧ d.inMemory (BitVec.ofNat 32 a) = true then
    some (wordAt d.bytes (BitVec.ofNat 32 a)).toNat
  else none

end Debugger

/-- A word in the memory of the simulation has a value. -/
theorem Debugger.memory_eq (d : Debugger) {v : Word} (hal : v.toNat % 4 = 0)
    (hin : d.inMemory v = true) : d.memory v.toNat = some (wordAt d.bytes v).toNat := by
  rw [memory, BitVec.ofNat_toNat, BitVec.setWidth_eq, if_pos ⟨hal, hin⟩]

/-- Elsewhere there is no value. -/
theorem Debugger.memory_eq_none (d : Debugger) {v : Word}
    (h : ¬ (v.toNat % 4 = 0 ∧ d.inMemory v = true)) : d.memory v.toNat = none := by
  rw [memory, BitVec.ofNat_toNat, BitVec.setWidth_eq, if_neg h]

/-- `*` of the hardware's debugger agrees with the memory. -/
theorem Npc.deref_agrees (m : Npc) (v : Word) : Agrees (m.deref v)
    (((Debugger.npc m).memory v.toNat).elim (.error .unspecified) .ok) := by
  by_cases h : v.toNat % 4 = 0 ∧ DUTMemory.inSimMem v = true
  · obtain ⟨hal, hin⟩ := h
    rw [(Debugger.npc m).memory_eq hal hin, Npc.deref, if_neg (not_not.mpr hal), if_neg (by simp [hin]),
      DUTMemory.read, if_pos hin]
    exact agrees_ok rfl
  · rw [(Debugger.npc m).memory_eq_none h]
    exact agrees_unspecified _

/-- `*` of NEMU agrees with the memory. -/
theorem Nemu.deref_agrees (m : Nemu) (v : Word) : Agrees (m.deref v)
    (((Debugger.nemu m).memory v.toNat).elim (.error .unspecified) .ok) := by
  by_cases h : v.toNat % 4 = 0 ∧ m.inPmem v = true
  · obtain ⟨hal, hin⟩ := h
    rw [(Debugger.nemu m).memory_eq hal hin, Nemu.deref, Nemu.paddrRead, if_pos hin]
    exact agrees_ok rfl
  · rw [(Debugger.nemu m).memory_eq_none h]
    exact agrees_unspecified _

namespace Debugger

variable (d : Debugger)

/-- Both debuggers read numbers in one way. -/
theorem number_eq (str : List Char) : d.semantics.number str = evalNumber str := by
  cases d <;> rfl

/-- Unary operators agree with their values. -/
theorem unary_agrees (type : TokenType) (v : Word) :
    Agrees (d.semantics.unary type v) (unaryValue d.memory type v.toNat) := by
  cases d with
  | npc m => exact evalUnary_agrees m.deref (npc m).memory v (m.deref_agrees v)
  | nemu m => exact evalUnary_agrees m.deref (nemu m).memory v (m.deref_agrees v)

/-- Binary operators agree with their values. -/
theorem binary_agrees (type : TokenType) (v w : Word) :
    Agrees (d.semantics.binary type v w) (binaryValue type v.toNat w.toNat) := by
  cases d with
  | npc m => exact evalBinary_agrees m.wideShift v w
  | nemu m => exact evalBinary_agrees m.wideShift v w

/-- A register agrees with its value. -/
theorem register_agrees (name : List Char) : Agrees (d.semantics.register ('$' :: name))
    ((d.register name).elim (.error .unspecified) .ok) := by
  rw [register]
  cases d.semantics.register ('$' :: name) with
  | error f => exact agrees_unspecified _
  | ok v =>
      cases v with
      | none => exact agrees_unspecified _
      | some v => exact agrees_ok rfl

end Debugger

variable {S : Semantics Word} {r x y : Reading Token} {op : Token} {dropped : List Token}
  {value value' : Except Trouble ℕ}

/-- Agreement goes through unary operators. -/
theorem agrees_un {f : ℕ → Except Trouble ℕ} (hr : Agrees (evalReading S r) value)
    (hf : ∀ v, Agrees (S.unary op.type v) (f v.toNat)) :
    Agrees (evalReading S (.un dropped op r)) (value >>= f) := by
  cases value with
  | error trouble =>
      cases trouble with
      | zeroDivisor =>
          rw [evalReading, hr.2 rfl]
          exact agrees_zeroDivisor
      | unspecified => exact agrees_unspecified _
  | ok n =>
      obtain ⟨v, hv, rfl⟩ := hr.1 n rfl
      rw [evalReading, hv]
      exact hf v

/-- Agreement goes through binary operators. -/
theorem agrees_bin {f : ℕ → ℕ → Except Trouble ℕ} (hx : Agrees (evalReading S x) value)
    (hy : Agrees (evalReading S y) value')
    (hf : ∀ v w, Agrees (S.binary op.type v w) (f v.toNat w.toNat)) :
    Agrees (evalReading S (.bin x op y)) (value >>= fun a => value' >>= f a) := by
  cases value with
  | error trouble =>
      cases trouble with
      | zeroDivisor =>
          rw [evalReading, hx.2 rfl]
          exact agrees_zeroDivisor
      | unspecified => exact agrees_unspecified _
  | ok n =>
      obtain ⟨v, hv, rfl⟩ := hx.1 n rfl
      rw [evalReading, hv, ok_bind]
      cases value' with
      | error trouble =>
          cases trouble with
          | zeroDivisor =>
              simp only [hy.2 rfl]
              exact agrees_zeroDivisor
          | unspecified => exact agrees_unspecified _
      | ok n =>
          obtain ⟨w, hw, rfl⟩ := hy.1 n rfl
          simp only [hw]
          exact hf v w

namespace Tree

variable {t : Tree}

/-- Parentheses change no value. -/
theorem evalReading_parenthesize (required : Bool) (r : Reading Token) :
    evalReading S (parenthesizeReading required r) = evalReading S r := by
  cases required <;> rfl

/-- **The reading of a tree evaluates to its value.** -/
theorem evalReading_reading (d : Debugger) (t : Tree) :
    Agrees (evalReading d.semantics t.reading) (t.value d.register d.memory) := by
  induction t with
  | num n =>
      rw [reading, evalReading, if_pos rfl, d.number_eq, n.evalNumber_text]
      exact agrees_ok (by rw [BitVec.toNat_ofNat, Nat.mod_eq_of_lt n.value_lt'])
  | reg r => exact d.register_agrees r.name
  | paren t ih => exact ih
  | un op t ih =>
      rw [← evalReading_parenthesize (decide (t.level < 11))] at ih
      exact agrees_un ih fun v => d.unary_agrees op v
  | bin op l r ihl ihr =>
      rw [← evalReading_parenthesize (decide (l.level < cLevel op))] at ihl
      rw [← evalReading_parenthesize (decide (r.level ≤ cLevel op))] at ihr
      exact agrees_bin ihl ihr fun v w => d.binary_agrees op v w

end Tree

/-- **The value of a tree**, from each of its texts: where it is specified, the debuggers
return it, and where a divisor is zero, they fail. -/
theorem expr_printed {t : Tree} {e : List Char} (ht : t.Unstacked) (he : Spaced t.tokens e)
    (d : Debugger) :
    (∀ n, t.value d.register d.memory = .ok n → ∃ v, d.expr e = .ok (some v) ∧ v.toNat = n) ∧
      (t.value d.register d.memory = .error .zeroDivisor → d.expr e = .ok none) := by
  have hc := t.canonical ht
  have hexpr : d.expr e = evalReading d.semantics t.reading := by
    rw [Debugger.expr, expr_eq, tokenize_of_spaced he hc.derives.scan_eq]
    exact congrArg _ hc.reads.descend_eq
  rw [hexpr]
  exact Tree.evalReading_reading d t

/-- `1`, `2` and `0x10u` -/
def one : Numeral where
  hex := none
  digits := ['1']
  suffix := none
  hex_x := by simp
  digits_ne := by simp
  digits_all := List.forall_mem_singleton.mpr rfl
  suffix_u := by simp
  value_lt := by decide

/-- `2` -/
def two : Numeral where
  hex := none
  digits := ['2']
  suffix := none
  hex_x := by simp
  digits_ne := by simp
  digits_all := List.forall_mem_singleton.mpr rfl
  suffix_u := by simp
  value_lt := by decide

/-- `0x10u` -/
def sixteen : Numeral where
  hex := some 'x'
  digits := ['1', '0']
  suffix := some 'u'
  hex_x := by simp
  digits_ne := by simp
  digits_all := List.forall_mem_cons.mpr ⟨rfl, List.forall_mem_singleton.mpr rfl⟩
  suffix_u := by simp [isSuffix]
  value_lt := by decide

/-- The negated difference of 1 and 2, times 16. -/
def product : Tree :=
  .bin ⟨.mul, rfl⟩ (.un ⟨.unaryMinus, rfl⟩ (.bin ⟨.sub, rfl⟩ (.num one) (.num two))) (.num sixteen)

/-- ` -(1-2) *0x10u` -/
theorem expr_printed_product : ∃ v, (Debugger.npc zeroNpc).expr
    [' ', '-', '(', '1', '-', '2', ')', ' ', '*', '0', 'x', '1', '0', 'u'] = .ok (some v) ∧
      v.toNat = 16 := by
  have hnone : ∀ c ∈ ([] : List Char), isBlank c = true := by simp
  have hblank : ∀ c ∈ [' '], isBlank c = true := List.forall_mem_singleton.mpr rfl
  have h0 : Spaced [] [] := .nil hnone
  have h1 : Spaced [⟨.mul, []⟩, ⟨.num, sixteen.text⟩] [' ', '*', '0', 'x', '1', '0', 'u'] :=
    .cons hblank (.operator (by decide) (by decide)) (.cons hnone (.num sixteen) h0)
  have h2 : Spaced (⟨.sub, []⟩ :: ⟨.num, two.text⟩ :: ⟨.rpar, []⟩ :: _)
      ['-', '2', ')', ' ', '*', '0', 'x', '1', '0', 'u'] :=
    .cons hnone (.operator (by decide) (by decide)) (.cons hnone (.num two)
      (.cons hnone (.operator (by decide) (by decide)) h1))
  have h3 : Spaced product.tokens
      [' ', '-', '(', '1', '-', '2', ')', ' ', '*', '0', 'x', '1', '0', 'u'] :=
    .cons hblank (.operator (by decide) (by decide)) (.cons hnone
      (.operator (by decide) (by decide)) (.cons hnone (.num one) h2))
  exact (expr_printed (t := product) ⟨⟨by decide, trivial, trivial⟩, trivial⟩ h3 _).1 16 (by decide)

end Sdb

end Bailuwan
