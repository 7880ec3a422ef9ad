/-
# Expressions of the debuggers (`npc/sim/sdb/expr.cpp`, `nemu/src/monitor/sdb/expr.c`)

The simulator and NEMU read expressions with the same code: `makeToken` divides the text
into tokens, `matchUnaryTokens` finds the unary operators, and `eval` divides a range of
tokens at its dominant operator.  They differ in the registers they look up and in the
dereference operator; `eval` is written over the `Semantics` of numbers, registers and
operators.

Results are `Except Fault (Option V)`: a fault ends the debugger, and `none` is a return
with `*success` false.  The token array is a list whose accesses are checked.
-/
import Bailuwan.LaneMemory
import Bailuwan.Lexer
import Bailuwan.Nemu

namespace Bailuwan

namespace Sdb

/-! ## Tokens -/

/-- The token types but `TK_NOTYPE`. -/
inductive TokenType
  | num
  | reg
  | eq
  | ne
  | le
  | lt
  | ge
  | gt
  | add
  | sub
  | mul
  | div
  | rem
  | and
  | or
  | xor
  | shl
  | lshr
  | ashr
  | land
  | lor
  | unaryNot
  | unaryLnot
  | unaryMinus
  | unaryDeref
  | lpar
  | rpar
  deriving DecidableEq, Repr

namespace TokenType

/-- `is_binary_token`: between `TK_BINARY_OP_BEGIN` and `TK_BINARY_OP_END`. -/
def isBinary : TokenType → Bool
  | eq | ne | le | lt | ge | gt | add | sub | mul | div | rem | and | or | xor | shl | lshr
  | ashr | land | lor => true
  | _ => false

/-- `is_unary_token`: between `TK_UNARY_BEGIN` and `TK_UNARY_END`. -/
def isUnary : TokenType → Bool
  | unaryNot | unaryLnot | unaryMinus | unaryDeref => true
  | _ => false

/-- `expecting_an_expr` -/
def expectingAnExpr (i : TokenType) : Bool := i.isBinary || i.isUnary || i == lpar

/-- `has_unary` -/
def hasUnary (i : TokenType) : Bool := i == mul || i == sub

/-- `to_unary` -/
def toUnary (i : TokenType) : TokenType := if i == mul then unaryDeref else unaryMinus

end TokenType

/-- A token; `str` is used for numbers and registers only. -/
structure Token where
  type : TokenType
  str : List Char := []
  deriving DecidableEq, Repr

/-- What ends the debugger. -/
inductive Fault
  | outOfFuel
  | index
  | panic
  | assertion
  | outOfBound
  deriving DecidableEq, Repr

/-! ## The tokenizer -/

/-- `[ \t\n]` -/
def isBlank (c : Char) : Bool := c == ' ' || c == '\t' || c == '\n'

/-- `[lo-hi]` -/
def inRange (lo hi c : Char) : Bool := decide (lo ≤ c) && decide (c ≤ hi)

/-- `[0-9]` -/
def isDigit (c : Char) : Bool := inRange '0' '9' c

/-- `[0-9a-fA-F]` -/
def isHexDigit (c : Char) : Bool := isDigit c || inRange 'a' 'f' c || inRange 'A' 'F' c

/-- `[uU]` -/
def isSuffix (c : Char) : Bool := c == 'u' || c == 'U'

/-- `[A-Za-z0-9_]` -/
def isWordChar (c : Char) : Bool :=
  inRange 'A' 'Z' c || inRange 'a' 'z' c || isDigit c || c == '_'

open Lexer (Pattern Rule firstMatch)

/-- The rules of the operators and parentheses. -/
def operatorRules : List (List Char × TokenType) :=
  [(['&', '&'], .land), (['|', '|'], .lor),
    (['>', '>', '>'], .ashr), (['>', '>'], .lshr), (['<', '<'], .shl),
    (['=', '='], .eq), (['!', '='], .ne), (['<', '='], .le), (['>', '='], .ge),
    (['<'], .lt), (['>'], .gt),
    (['!'], .unaryLnot), (['~'], .unaryNot), (['&'], .and), (['|'], .or), (['^'], .xor),
    (['+'], .add), (['-'], .sub), (['*'], .mul), (['/'], .div), (['%'], .rem),
    (['('], .lpar), ([')'], .rpar)]

/-- `0[xX][0-9a-fA-F]+[uU]?` -/
def hexRule : Pattern :=
  .seq (.one (· == '0')) (.seq (.one fun c => c == 'x' || c == 'X')
    (.seq (.many1 isHexDigit) (.opt isSuffix)))

/-- `[0-9]+[uU]?` -/
def decRule : Pattern := .seq (.many1 isDigit) (.opt isSuffix)

/-- `\$[A-Za-z0-9_]+` -/
def regRule : Pattern := .seq (.one (· == '$')) (.many1 isWordChar)

/-- `rules`; no type is `TK_NOTYPE`. -/
def rules : List (Rule (Option TokenType)) :=
  ⟨.many1 isBlank, none⟩ ::
    (operatorRules.map fun r => (⟨.lit r.1, some r.2⟩ : Rule (Option TokenType))) ++
    [⟨hexRule, some .num⟩, ⟨decRule, some .num⟩, ⟨regRule, some .reg⟩]

/-- What is recorded for a match. -/
def newToken (type : Option TokenType) (substr : List Char) : List Token :=
  match type with
  | none => []
  | some .num => [⟨.num, substr⟩]
  | some .reg => [⟨.reg, substr⟩]
  | some type => [⟨type, []⟩]

/-- `make_token`; no tokens stand for a return of false. -/
def makeToken : ℕ → List Char → Except Fault (Option (List Token))
  | _, [] => .ok (some [])
  | 0, _ :: _ => .error .outOfFuel
  | fuel + 1, c :: s =>
      match firstMatch rules (c :: s) with
      | none => .ok none
      | some (type, substrLen) => do
          let tokens ← makeToken fuel ((c :: s).drop substrLen)
          return tokens.map fun ts => newToken type ((c :: s).take substrLen) ++ ts

/-- `match_unary_tokens`; `prev` is the type of the token before, once it is done. -/
def matchUnaryTokens : Option TokenType → List Token → List Token
  | _, [] => []
  | prev, t :: ts =>
      let type := if t.type.hasUnary && prev.all TokenType.expectingAnExpr then t.type.toUnary
        else t.type
      { t with type } :: matchUnaryTokens (some type) ts

/-! ## Ranges of tokens -/

/-- `tokens[i]` -/
def tokenAt (tokens : List Token) (i : ℤ) : Except Fault Token :=
  if 0 ≤ i then
    match tokens[i.toNat]? with
    | some t => .ok t
    | none => .error .index
  else .error .index

/-- The loop of `check_parentheses` over the last `n` tokens up to `q`, with its result and
`*invalid_expr`. -/
def parenthesesLoop (tokens : List Token) (q : ℤ) : ℕ → ℤ → ℤ → Except Fault (Bool × Bool)
  | 0, _, cnt => .ok (cnt == 0, false)
  | n + 1, i, cnt => do
      let t ← tokenAt tokens i
      if t.type = .lpar then parenthesesLoop tokens q n (i + 1) (cnt + 1)
      else if t.type = .rpar then
        -- early match, mismatch
        if cnt - 1 = 0 ∧ i ≠ q then .ok (false, false)
        else if cnt - 1 < 0 then .ok (false, true)
        else parenthesesLoop tokens q n (i + 1) (cnt - 1)
      else parenthesesLoop tokens q n (i + 1) cnt

/-- `check_parentheses`, with `*invalid_expr`. -/
def checkParentheses (tokens : List Token) (p q : ℤ) : Except Fault (Bool × Bool) := do
  let first ← tokenAt tokens p
  if first.type ≠ .lpar then return (false, false)
  let last ← tokenAt tokens q
  if last.type ≠ .rpar then return (false, false)
  parenthesesLoop tokens q (q + 1 - p).toNat p 0

/-- `get_precedence` -/
def getPrecedence : TokenType → Except Fault ℤ
  | .unaryNot | .unaryLnot | .unaryMinus | .unaryDeref => .ok 100
  | .mul | .div | .rem => .ok 90
  | .add | .sub => .ok 80
  | .shl | .lshr | .ashr => .ok 70
  | .le | .ge | .lt | .gt => .ok 60
  | .eq | .ne => .ok 50
  | .and => .ok 40
  | .xor => .ok 30
  | .or => .ok 20
  | .land => .ok 10
  | .lor => .ok 0
  | _ => .error .panic

/-- `INT_MAX` -/
def intMax : ℤ := 2147483647

/-- The loop of `find_dominant_operator` over `n` tokens from `i`. -/
def dominantLoop (tokens : List Token) : ℕ → ℤ → ℤ → ℤ → ℤ → Except Fault ℤ
  | 0, _, _, idx, _ => .ok idx
  | n + 1, i, minPrec, idx, paren => do
      let t ← tokenAt tokens i
      if t.type = .lpar then dominantLoop tokens n (i + 1) minPrec idx (paren + 1)
      else if t.type = .rpar then dominantLoop tokens n (i + 1) minPrec idx (paren - 1)
      else if paren > 0 then dominantLoop tokens n (i + 1) minPrec idx paren
      else if t.type.isBinary || t.type.isUnary then
        let prec ← getPrecedence t.type
        if prec ≤ minPrec then dominantLoop tokens n (i + 1) prec i paren
        else dominantLoop tokens n (i + 1) minPrec idx paren
      else dominantLoop tokens n (i + 1) minPrec idx paren

/-- `find_dominant_operator`; no index stands for `*success` being false. -/
def findDominantOperator (tokens : List Token) (p q : ℤ) : Except Fault (Option ℤ) := do
  let idx ← dominantLoop tokens (q + 1 - p).toNat p intMax (-1) 0
  return if idx = -1 then none else some idx

/-! ## Evaluation -/

/-- The values of numbers and registers, by their texts, and the operators. -/
structure Semantics (V : Type) where
  number : List Char → Except Fault (Option V)
  register : List Char → Except Fault (Option V)
  unary : TokenType → V → Except Fault (Option V)
  binary : TokenType → V → V → Except Fault (Option V)

variable {V : Type}

/-- `eval` -/
def eval (S : Semantics V) (tokens : List Token) : ℕ → ℤ → ℤ → Except Fault (Option V)
  | 0, _, _ => .error .outOfFuel
  | fuel + 1, p, q =>
      if p > q then .ok none
      else if p = q then do
        let t ← tokenAt tokens p
        if t.type = .num then S.number t.str
        else if t.type = .reg then S.register t.str
        else .ok none
      else do
        let (matched, invalidExpr) ← checkParentheses tokens p q
        if matched then eval S tokens fuel (p + 1) (q - 1)
        else if invalidExpr then .ok none
        else
          match ← findDominantOperator tokens p q with
          | none => .ok none
          | some op =>
              let t ← tokenAt tokens op
              if t.type.isUnary then
                match ← eval S tokens fuel (op + 1) q with
                | none => .ok none
                | some val => S.unary t.type val
              else if t.type.isBinary = false then .error .assertion
              else
                match ← eval S tokens fuel p (op - 1) with
                | none => .ok none
                | some val1 =>
                    match ← eval S tokens fuel (op + 1) q with
                    | none => .ok none
                    | some val2 => S.binary t.type val1 val2

/-- `expr` -/
def expr (S : Semantics V) (e : List Char) : Except Fault (Option V) := do
  match ← makeToken e.length e with
  | none => .ok none
  | some tokens =>
      let tokens := matchUnaryTokens none tokens
      eval S tokens (tokens.length + 1) 0 (tokens.length - 1)

/-- `syntax_check_impl` -/
def syntaxCheckImpl (tokens : List Token) : ℕ → ℤ → ℤ → Except Fault Bool
  | 0, _, _ => .error .outOfFuel
  | fuel + 1, p, q =>
      if p > q then .ok false
      else if p = q then .ok true
      else do
        let (matched, invalidExpr) ← checkParentheses tokens p q
        if matched then syntaxCheckImpl tokens fuel (p + 1) (q - 1)
        else if invalidExpr then .ok false
        else
          match ← findDominantOperator tokens p q with
          | none => .ok false
          | some op =>
              let t ← tokenAt tokens op
              if t.type.isUnary then syntaxCheckImpl tokens fuel (op + 1) q
              else if ← syntaxCheckImpl tokens fuel p (op - 1) then
                syntaxCheckImpl tokens fuel (op + 1) q
              else .ok false

/-- `syntax_check` -/
def syntaxCheck (e : List Char) : Except Fault Bool := do
  match ← makeToken e.length e with
  | none => .ok false
  | some tokens =>
      let tokens := matchUnaryTokens none tokens
      syntaxCheckImpl tokens (tokens.length + 1) 0 (tokens.length - 1)

/-! ## Numbers -/

/-- `isspace` -/
def isSpace (c : Char) : Bool :=
  c == ' ' || c == '\t' || c == '\n' || c == '\x0b' || c == '\x0c' || c == '\r'

/-- The value of a digit or letter; other characters are no digits of any base. -/
def digitValue (c : Char) : ℕ :=
  if isDigit c then c.toNat - 48
  else if inRange 'a' 'z' c then c.toNat - 97 + 10
  else if inRange 'A' 'Z' c then c.toNat - 65 + 10
  else 36

/-- The number written with digits of a base. -/
def ofDigits (base : ℕ) (ds : List Char) : ℕ := ds.foldl (fun n c => base * n + digitValue c) 0

/-- The digits at the beginning of a text, behind `0x` where the base is 16. -/
def leadingDigits (base : ℕ) (s : List Char) : List Char :=
  let digits := fun s : List Char => s.takeWhile fun c => decide (digitValue c < base)
  match s with
  | '0' :: x :: s' =>
      if base = 16 ∧ (x = 'x' ∨ x = 'X') ∧ digits s' ≠ [] then digits s' else digits s
  | _ => digits s

/-- `strtol`, of the C library, with a `long` of 64 bits; no value stands for a text without
digits, where `*endptr` is the text itself. -/
def strtol (s : List Char) (base : ℕ) : Option ℤ :=
  let value := fun s : List Char =>
    if leadingDigits base s = [] then none else some (ofDigits base (leadingDigits base s) : ℤ)
  match s.dropWhile isSpace with
  | '-' :: s => (value s).map fun n => max (-n) (-2 ^ 63)
  | '+' :: s => (value s).map fun n => min n (2 ^ 63 - 1)
  | s => (value s).map fun n => min n (2 ^ 63 - 1)

/-- The value of a number token. -/
def evalNumber (str : List Char) : Except Fault (Option Word) :=
  let base16 := str[0]? = some '0' ∧ (str[1]? = some 'x' ∨ str[1]? = some 'X')
  .ok ((strtol str (if base16 then 16 else 10)).map fun ret => BitVec.ofInt 32 ret)

/-! ## Operators -/

/-- The unary operators, with what dereferencing does. -/
def evalUnary (deref : Word → Except Fault (Option Word)) (type : TokenType) (val : Word) :
    Except Fault (Option Word) :=
  match type with
  | .unaryNot => .ok (some (~~~val))
  | .unaryLnot => .ok (some (if val = 0 then 1 else 0))
  | .unaryMinus => .ok (some (BitVec.ofInt 32 (-(val.toNat : ℤ))))
  | .unaryDeref => deref val
  | _ => .error .panic

/-- A condition as a word. -/
def ofCond (b : Bool) : Word := if b then 1 else 0

/-- The binary operators; `wide` is what the compiler makes of a shift by 32 or more. -/
def evalBinary (wide : TokenType → Word → Word → Word) (type : TokenType) (val1 val2 : Word) :
    Except Fault (Option Word) :=
  match type with
  | .eq => .ok (some (ofCond (val1 == val2)))
  | .ne => .ok (some (ofCond (val1 != val2)))
  | .le => .ok (some (ofCond (BitVec.ule val1 val2)))
  | .lt => .ok (some (ofCond (BitVec.ult val1 val2)))
  | .ge => .ok (some (ofCond (BitVec.ule val2 val1)))
  | .gt => .ok (some (ofCond (BitVec.ult val2 val1)))
  | .add => .ok (some (val1 + val2))
  | .sub => .ok (some (val1 - val2))
  | .mul => .ok (some (val1 * val2))
  | .and => .ok (some (val1 &&& val2))
  | .or => .ok (some (val1 ||| val2))
  | .xor => .ok (some (val1 ^^^ val2))
  | .shl => .ok (some (if val2.toNat < 32 then val1 <<< val2.toNat else wide .shl val1 val2))
  | .lshr => .ok (some (if val2.toNat < 32 then val1 >>> val2.toNat else wide .lshr val1 val2))
  | .land => .ok (some (ofCond (val1 != 0 && val2 != 0)))
  | .lor => .ok (some (ofCond (val1 != 0 || val2 != 0)))
  | .ashr =>
      .ok (some (if val2.toNat < 32 then val1.sshiftRight val2.toNat else wide .ashr val1 val2))
  | .div => .ok (if val2 = 0 then none else some (val1 / val2))
  | .rem => .ok (if val2 = 0 then none else some (val1 % val2))
  | _ => .error .panic

/-! ## Registers -/

/-- `regs` of NEMU, `gpr_names` of the simulator. -/
def gprNames : List (List Char) :=
  [['z', 'e', 'r', 'o'], ['r', 'a'], ['s', 'p'], ['g', 'p'], ['t', 'p'], ['t', '0'],
    ['t', '1'], ['t', '2'], ['s', '0'], ['s', '1'], ['a', '0'], ['a', '1'], ['a', '2'],
    ['a', '3'], ['a', '4'], ['a', '5'], ['a', '6'], ['a', '7'], ['s', '2'], ['s', '3'],
    ['s', '4'], ['s', '5'], ['s', '6'], ['s', '7'], ['s', '8'], ['s', '9'], ['s', '1', '0'],
    ['s', '1', '1'], ['t', '3'], ['t', '4'], ['t', '5'], ['t', '6']]

/-- `csr_names`, in the order of the indices. -/
def csrNames : List (List Char × BitVec 12) :=
  [(['m', 's', 't', 'a', 't', 'u', 's'], 0x300), (['m', 't', 'v', 'e', 'c'], 0x305),
    (['m', 'e', 'p', 'c'], 0x341), (['m', 'c', 'a', 'u', 's', 'e'], 0x342),
    (['m', 't', 'v', 'a', 'l'], 0x343), (['m', 'c', 'y', 'c', 'l', 'e'], 0xb00),
    (['m', 'c', 'y', 'c', 'l', 'e', 'h'], 0xb80),
    (['m', 'v', 'e', 'n', 'd', 'o', 'r', 'i', 'd'], 0xf11),
    (['m', 'a', 'r', 'c', 'h', 'i', 'd'], 0xf12)]

/-- `isa_reg_str2val` of a machine that names its first `count` registers. -/
def isaRegStr2val (count : ℕ) (pc : Word) (gpr : ℕ → Except Fault Word) (s : List Char) :
    Except Fault (Option Word) :=
  if s = ['p', 'c'] then .ok (some pc)
  else if s.head? = some 'x' ∨ s.head? = some 'X' then
    match strtol s.tail 10 with
    | none => .ok none
    | some n =>
        let idx := (BitVec.ofInt 32 n).toNat
        if idx ≥ count then .ok none else (gpr idx).map some
  else
    match (gprNames.take count).findIdx? (· == s) with
    | some i => (gpr i).map some
    | none => .ok none

/-- `isa_csr_str2val` -/
def isaCsrStr2val (csr : BitVec 12 → Word) (s : List Char) : Option Word :=
  (csrNames.find? fun entry => entry.1 == s).map fun entry => csr entry.2

/-- The value of a register token: a register, or else a CSR. -/
def evalRegister (reg : List Char → Except Fault (Option Word)) (csr : List Char → Option Word)
    (str : List Char) : Except Fault (Option Word) := do
  match ← reg (str.drop 1) with
  | some res => .ok (some res)
  | none => .ok (csr (str.drop 1))

/-! ## The debugger of the simulator -/

/-- What the debugger sees of the simulation. -/
structure Npc where
  exuPc : Word
  reg : BitVec 4 → Word
  csr : BitVec 12 → Word
  mem : Bytes
  wideShift : TokenType → Word → Word → Word

namespace Npc

variable (m : Npc)

/-- `isa_reg_str2val` -/
def isaRegStr2val : List Char → Except Fault (Option Word) :=
  Sdb.isaRegStr2val 16 m.exuPc fun idx => .ok (m.reg (BitVec.ofNat 4 idx))

/-- `TK_UNARY_DEREF`; the read of memory aborts outside of it. -/
def deref (val : Word) : Except Fault (Option Word) :=
  if val.toNat % 4 ≠ 0 then .ok none
  else if DUTMemory.inSimMem val = false then .ok none
  else
    match DUTMemory.read m.mem val with
    | some word => .ok (some word)
    | none => .error .outOfBound

/-- What the operands and operators of an expression mean in NPC's debugger. -/
def semantics : Semantics Word where
  number := evalNumber
  register := evalRegister m.isaRegStr2val (isaCsrStr2val m.csr)
  unary := evalUnary m.deref
  binary := evalBinary m.wideShift

end Npc

/-! ## The debugger of NEMU -/

/-- A device: its addresses, and the word at an offset once its callback has run; there is
none where the callback asserts something that does not hold. -/
structure IOMap where
  low : Word
  high : Word
  read : Word → Option Word

/-- What an expression is evaluated in in NEMU. -/
structure Nemu where
  cpu : Bailuwan.Nemu.CPU
  /-- `CONFIG_RVE` -/
  rve : Bool
  /-- `CONFIG_RT_CHECK` -/
  rtCheck : Bool
  /-- `CONFIG_MBASE` -/
  mbase : Word
  /-- `CONFIG_MSIZE` -/
  msize : Word
  /-- The maps, with `CONFIG_DEVICE`. -/
  maps : Option (List IOMap)
  inDifftestTracesim : Bool
  wideShift : TokenType → Word → Word → Word

namespace Nemu

variable (m : Nemu)

/-- `gpr(idx)`, with `check_reg_idx`. -/
def gpr (idx : ℕ) : Except Fault Word :=
  if m.rtCheck = true ∧ ¬ idx < (if m.rve then 16 else 32) then .error .assertion
  else .ok (m.cpu.gpr (BitVec.ofNat 5 idx))

/-- `isa_reg_str2val` -/
def isaRegStr2val : List Char → Except Fault (Option Word) := Sdb.isaRegStr2val 32 m.cpu.pc m.gpr

/-- `in_pmem` -/
def inPmem (addr : Word) : Bool := BitVec.ult (addr - m.mbase) m.msize

/-- `mmio_read`, with `map_read` and `check_bound`. -/
def mmioRead (maps : List IOMap) (addr : Word) : Except Fault Word :=
  match maps.find? fun map => BitVec.ule map.low addr && BitVec.ule addr map.high with
  | none => if m.inDifftestTracesim then .ok 0 else .error .assertion
  | some map =>
      match map.read (addr - map.low) with
      | some word => .ok word
      | none => .error .assertion

/-- `paddr_read` of a word. -/
def paddrRead (addr : Word) : Except Fault Word :=
  if m.inPmem addr then .ok (Bailuwan.Nemu.read m.cpu.mem addr 4)
  else
    match m.maps with
    | some maps => m.mmioRead maps addr
    | none => .error .outOfBound

/-- `TK_UNARY_DEREF`: `vaddr_read`, which is `paddr_read`. -/
def deref (val : Word) : Except Fault (Option Word) := (m.paddrRead val).map some

/-- What the operands and operators of an expression mean in NEMU. -/
def semantics : Semantics Word where
  number := evalNumber
  register := evalRegister m.isaRegStr2val (isaCsrStr2val m.cpu.csr)
  unary := evalUnary m.deref
  binary := evalBinary m.wideShift

end Nemu

/-! ## The two debuggers -/

/-- The two debuggers. -/
inductive Debugger
  | npc (m : Npc)
  | nemu (m : Nemu)

namespace Debugger

/-- What an expression means in one of them. -/
def semantics : Debugger → Semantics Word
  | npc m => m.semantics
  | nemu m => m.semantics

/-- `expr` of a debugger. -/
def expr (d : Debugger) (e : List Char) : Except Fault (Option Word) := Sdb.expr d.semantics e

end Debugger

end Sdb

end Bailuwan
