/-
# Texts of expressions

The texts of a list of tokens are the texts of the tokens with blanks between them, as many
as one likes and none where one likes (`Spaced`).  In an expression no token runs into the
next one: after an operand comes what is no part of a word, and after an operator what is
no part of an operator.  So the tokenizer finds the tokens again (`lexes_of_spaced`), and
`match_unary_tokens` the unary operators among them (`matchUnaryTokens_raw`); together they
are `tokenize_of_spaced`.
-/
import Bailuwan.ExprReading

namespace Bailuwan

namespace Sdb

open OperatorReading Lexer

/-! ## Numbers -/

/-- A number below `2 ^ 32`, as it is written. -/
structure Numeral where
  /-- The `x` of a hexadecimal number. -/
  hex : Option Char
  digits : List Char
  suffix : Option Char
  hex_x : ∀ c ∈ hex, c = 'x' ∨ c = 'X'
  digits_ne : digits ≠ []
  digits_all : ∀ c ∈ digits, (if hex.isSome then isHexDigit c else isDigit c) = true
  suffix_u : ∀ c ∈ suffix, isSuffix c = true
  value_lt : ofDigits (if hex.isSome then 16 else 10) digits < 2 ^ 32

namespace Numeral

variable (n : Numeral)

/-- The base it is written in. -/
def base : ℕ := if n.hex.isSome then 16 else 10

/-- The number. -/
def value : ℕ := ofDigits n.base n.digits

/-- The text: `0x`, the digits and the suffix. -/
def text : List Char :=
  (n.hex.elim [] fun x => ['0', x]) ++ (n.digits ++ n.suffix.toList)

/-- The digits of a hexadecimal number. -/
theorem digits_of_hex {x : Char} (h : n.hex = some x) : ∀ c ∈ n.digits, isHexDigit c = true := by
  intro c hc
  simpa [h] using n.digits_all c hc

/-- The digits of a decimal number. -/
theorem digits_of_dec (h : n.hex = none) : ∀ c ∈ n.digits, isDigit c = true := by
  intro c hc
  simpa [h] using n.digits_all c hc

end Numeral

/-- The name of a register. -/
structure RegName where
  name : List Char
  name_ne : name ≠ []
  name_all : ∀ c ∈ name, isWordChar c = true

/-- The text, with the dollar sign. -/
def RegName.text (r : RegName) : List Char := '$' :: r.name

/-! ## Texts of tokens -/

/-- How operators and parentheses are written. -/
def symbol : TokenType → List Char
  | .num => []
  | .reg => []
  | .eq => ['=', '=']
  | .ne => ['!', '=']
  | .le => ['<', '=']
  | .lt => ['<']
  | .ge => ['>', '=']
  | .gt => ['>']
  | .add => ['+']
  | .sub => ['-']
  | .mul => ['*']
  | .div => ['/']
  | .rem => ['%']
  | .and => ['&']
  | .or => ['|']
  | .xor => ['^']
  | .shl => ['<', '<']
  | .lshr => ['>', '>']
  | .ashr => ['>', '>', '>']
  | .land => ['&', '&']
  | .lor => ['|', '|']
  | .unaryNot => ['~']
  | .unaryLnot => ['!']
  | .unaryMinus => ['-']
  | .unaryDeref => ['*']
  | .lpar => ['(']
  | .rpar => [')']

/-- A token and its text. -/
inductive Spells : Token → List Char → Prop
  | num (n : Numeral) : Spells ⟨.num, n.text⟩ n.text
  | reg (r : RegName) : Spells ⟨.reg, r.text⟩ r.text
  | operator {type : TokenType} (hnum : type ≠ .num) (hreg : type ≠ .reg) :
      Spells ⟨type, []⟩ (symbol type)

/-- A text of a list of tokens. -/
inductive Spaced : List Token → List Char → Prop
  | nil {b : List Char} (hb : ∀ c ∈ b, isBlank c = true) : Spaced [] b
  | cons {b w s : List Char} {t : Token} {l : List Token} (hb : ∀ c ∈ b, isBlank c = true)
      (ht : Spells t w) (h : Spaced l s) : Spaced (t :: l) (b ++ (w ++ s))

/-- The type that the rules give to a token: they know only two unary operators. -/
def rawType : TokenType → TokenType
  | .unaryMinus => .sub
  | .unaryDeref => .mul
  | type => type

/-- A token as it is scanned, before unary operators are told apart. -/
def raw (t : Token) : Token := { t with type := rawType t.type }

/-! ## Unary operators -/

/-- The lexer knows from the last token whether an operand comes next. -/
theorem expectingAnExpr_of_follow {e : Bool} {t : Token} {d : Bool}
    (h : Kind.follow e (kind t) = some d) : t.type.expectingAnExpr = d := by
  obtain ⟨type, str⟩ := t
  cases e <;> cases type <;> simp [kind, Kind.follow] at h <;> subst h <;> rfl

/-- Where a token stands tells whether it is a unary operator. -/
theorem rawType_of_follow {e : Bool} {t : Token} {d : Bool}
    (h : Kind.follow e (kind t) = some d) :
    (if (rawType t.type).hasUnary && e then (rawType t.type).toUnary else rawType t.type) =
      t.type := by
  obtain ⟨type, str⟩ := t
  cases e <;> cases type <;> simp [kind, Kind.follow] at h <;> rfl

/-- **`match_unary_tokens`** finds the unary operators again. -/
theorem matchUnaryTokens_raw {l : List Token} {e e' : Bool} {prev : Option TokenType}
    (h : scan kind e l = some e') (hprev : prev.all TokenType.expectingAnExpr = e) :
    matchUnaryTokens prev (l.map raw) = l := by
  induction l generalizing e prev with
  | nil => rfl
  | cons t l ih =>
      obtain ⟨d, hd, hl⟩ := scan_cons_iff.mp h
      have htype := rawType_of_follow hd
      rw [List.map_cons, matchUnaryTokens]
      simp only [raw, hprev, htype]
      rw [ih hl (by simpa using expectingAnExpr_of_follow hd)]

/-! ## Characters -/

/-- A character with which a longer operator might go on. -/
def isTail (c : Char) : Bool := c == '&' || c == '|' || c == '<' || c == '>' || c == '='

/-- What may follow: no word where an operator is expected, no operator where an operand is. -/
def Clear (e : Bool) (s : List Char) : Prop :=
  ∀ c ∈ s.head?, (if e then isTail c else isWordChar c) = false

/-- `[lo-hi]` is a range of codes. -/
theorem inRange_iff {lo hi c : Char} :
    inRange lo hi c = true ↔ lo.toNat ≤ c.toNat ∧ c.toNat ≤ hi.toNat := by
  simp only [inRange, Char.le_def, UInt32.le_iff_toNat_le, Bool.and_eq_true, decide_eq_true_eq]
  exact Iff.rfl

/-- The codes of decimal digits. -/
theorem isDigit_iff {c : Char} : isDigit c = true ↔ 48 ≤ c.toNat ∧ c.toNat ≤ 57 := inRange_iff

/-- The codes of hexadecimal digits. -/
theorem isHexDigit_iff {c : Char} : isHexDigit c = true ↔ (48 ≤ c.toNat ∧ c.toNat ≤ 57) ∨
    (97 ≤ c.toNat ∧ c.toNat ≤ 102) ∨ (65 ≤ c.toNat ∧ c.toNat ≤ 70) := by
  rw [isHexDigit, Bool.or_eq_true, Bool.or_eq_true, isDigit_iff, inRange_iff, inRange_iff,
    or_assoc]
  exact Iff.rfl

/-- A hexadecimal digit is part of a word. -/
theorem isWordChar_of_isHexDigit {c : Char} (h : isHexDigit c = true) : isWordChar c = true := by
  rw [isWordChar, Bool.or_eq_true, Bool.or_eq_true, Bool.or_eq_true, isDigit_iff, inRange_iff,
    inRange_iff]
  rcases isHexDigit_iff.mp h with h | h | h
  · exact Or.inl (Or.inr h)
  · exact Or.inl (Or.inl (Or.inr ⟨h.1, h.2.trans (by decide)⟩))
  · exact Or.inl (Or.inl (Or.inl ⟨h.1, h.2.trans (by decide)⟩))

/-- A decimal digit is part of a word. -/
theorem isWordChar_of_isDigit {c : Char} (h : isDigit c = true) : isWordChar c = true :=
  isWordChar_of_isHexDigit (isHexDigit_iff.mpr (Or.inl (isDigit_iff.mp h)))

theorem isSuffix_iff {c : Char} : isSuffix c = true ↔ c = 'u' ∨ c = 'U' := by
  simp [isSuffix]

theorem isBlank_iff {c : Char} : isBlank c = true ↔ c = ' ' ∨ c = '\t' ∨ c = '\n' := by
  simp [isBlank, or_assoc]

/-- No operator begins like a word, a blank or a register. -/
theorem operatorRules_start : ∀ r ∈ operatorRules, ∀ c ∈ r.1.head?,
    isWordChar c = false ∧ isBlank c = false ∧ c ≠ '$' := by
  have hall : (operatorRules.all fun r => r.1.head?.all fun c =>
      !isWordChar c && !isBlank c && c != '$') = true := by decide
  intro r hr c hc
  have hstart := List.all_eq_true.mp hall r hr
  rw [hc] at hstart
  simpa [and_assoc] using hstart

/-! ## Matches -/

/-- The rules of operators are those of fixed texts. -/
theorem firstMatch_lits {l : List (List Char × TokenType)} {r : List Char × TokenType}
    {others : List (Rule (Option TokenType))} {s : List Char}
    (h : (l.find? fun r => r.1.isPrefixOf s) = some r) :
    firstMatch (l.map (fun r => (⟨.lit r.1, some r.2⟩ : Rule (Option TokenType))) ++ others) s =
      some (some r.2, r.1.length) := by
  induction l with
  | nil => cases h
  | cons a l ih =>
      rw [List.map_cons, List.cons_append]
      by_cases ha : a.1.isPrefixOf s = true
      · simp only [List.find?_cons, ha, Option.some.injEq] at h
        subst h
        exact firstMatch_of_longest (by rw [longest_lit, if_pos ha])
      · simp only [List.find?_cons, ha] at h
        rw [firstMatch_cons_none (by rw [longest_lit, if_neg ha])]
        exact ih h

/-- Past the blanks. -/
theorem firstMatch_rules {s : List Char} (h : ∀ c ∈ s.head?, isBlank c = false) :
    firstMatch rules s = firstMatch
      (operatorRules.map (fun r => (⟨.lit r.1, some r.2⟩ : Rule (Option TokenType))) ++
        [⟨hexRule, some .num⟩, ⟨decRule, some .num⟩, ⟨regRule, some .reg⟩]) s :=
  firstMatch_cons_none (longest_many1_none h)

/-- Past the operators. -/
theorem firstMatch_words {c : Char} {s : List Char} (h : isWordChar c = true ∨ c = '$') :
    firstMatch rules (c :: s) =
      firstMatch [⟨hexRule, some .num⟩, ⟨decRule, some .num⟩, ⟨regRule, some .reg⟩] (c :: s) := by
  have hblank : ∀ d ∈ (c :: s).head?, isBlank d = false := by
    intro d hd
    obtain rfl : c = d := by simpa using hd
    rcases h with h | rfl
    · by_contra hb
      rw [Bool.not_eq_false] at hb
      rcases isBlank_iff.mp hb with rfl | rfl | rfl <;> exact absurd h (by decide)
    · rfl
  rw [firstMatch_rules hblank]
  refine firstMatch_append fun rule hrule => ?_
  obtain ⟨r, hr, rfl⟩ := List.mem_map.mp hrule
  rw [longest_lit, if_neg]
  intro hprefix
  obtain ⟨tail, htail⟩ := List.isPrefixOf_iff_prefix.mp hprefix
  cases hw : r.1 with
  | nil => exact operatorRules_ne_nil r hr hw
  | cons d w =>
      obtain ⟨hword, -, hdollar⟩ := operatorRules_start r hr d (by rw [hw]; rfl)
      rw [hw] at htail
      obtain ⟨rfl, -⟩ := List.cons.inj htail
      rcases h with h | h
      · rw [h] at hword
        cases hword
      · exact hdollar h

/-- The rule of an operator is found: what follows makes no longer operator of it. -/
theorem find_symbol {type : TokenType} {s : List Char} (hnum : type ≠ .num) (hreg : type ≠ .reg)
    (hs : type ≠ .rpar → Clear true s) :
    (operatorRules.find? fun r => r.1.isPrefixOf (symbol type ++ s)) =
      some (symbol type, rawType type) := by
  have htail : type ≠ .rpar → ∀ c ∈ s.head?, ('&' == c) = false ∧ ('|' == c) = false ∧
      ('<' == c) = false ∧ ('>' == c) = false ∧ ('=' == c) = false := by
    intro hr c hc
    have hclear : isTail c = false := hs hr c hc
    simp only [isTail, Bool.or_eq_false_iff, beq_eq_false_iff_ne, and_assoc] at hclear
    obtain ⟨hand, hor, hlt, hgt, heq⟩ := hclear
    exact ⟨beq_false_of_ne hand.symm, beq_false_of_ne hor.symm, beq_false_of_ne hlt.symm,
      beq_false_of_ne hgt.symm, beq_false_of_ne heq.symm⟩
  cases s with
  | nil =>
      cases type with
      | num => exact absurd rfl hnum
      | reg => exact absurd rfl hreg
      | _ => rfl
  | cons c s =>
      have hclear : type ≠ .rpar → _ := fun hr => htail hr c rfl
      cases type with
      | num => exact absurd rfl hnum
      | reg => exact absurd rfl hreg
      | lt =>
          obtain ⟨-, -, hlt, -, heq⟩ := hclear (by decide)
          simp [operatorRules, symbol, rawType, List.find?, List.isPrefixOf, hlt, heq]
      | gt =>
          obtain ⟨-, -, -, hgt, heq⟩ := hclear (by decide)
          simp [operatorRules, symbol, rawType, List.find?, List.isPrefixOf, hgt, heq]
      | lshr =>
          obtain ⟨-, -, -, hgt, -⟩ := hclear (by decide)
          simp [operatorRules, symbol, rawType, List.find?, List.isPrefixOf, hgt]
      | and =>
          obtain ⟨hand, -⟩ := hclear (by decide)
          simp [operatorRules, symbol, rawType, List.find?, List.isPrefixOf, hand]
      | or =>
          obtain ⟨-, hor, -⟩ := hclear (by decide)
          simp [operatorRules, symbol, rawType, List.find?, List.isPrefixOf, hor]
      | unaryLnot =>
          obtain ⟨-, -, -, -, heq⟩ := hclear (by decide)
          simp [operatorRules, symbol, rawType, List.find?, List.isPrefixOf, heq]
      -- the others are decided by their own characters
      | _ => rfl

/-- The rule of an operator matches first at its symbol. -/
theorem firstMatch_operator {type : TokenType} {s : List Char} (hnum : type ≠ .num)
    (hreg : type ≠ .reg) (hs : type ≠ .rpar → Clear true s) :
    firstMatch rules (symbol type ++ s) = some (some (rawType type), (symbol type).length) := by
  have hfind := find_symbol hnum hreg hs
  rw [firstMatch_rules, firstMatch_lits hfind]
  intro c hc
  refine (operatorRules_start _ (List.mem_of_find?_eq_some hfind) c ?_).2.1
  cases type <;> first
    | exact absurd rfl hnum
    | exact absurd rfl hreg
    | exact hc

/-- A suffix ends the digits. -/
theorem isHexDigit_of_isSuffix {c : Char} (h : isSuffix c = true) : isHexDigit c = false := by
  rcases isSuffix_iff.mp h with rfl | rfl <;> decide

/-- A word is clear of what is no word. -/
theorem Clear.not_word {s : List Char} (hs : Clear false s) : ∀ c ∈ s.head?,
    isHexDigit c = false ∧ isDigit c = false ∧ isSuffix c = false := by
  intro c hc
  have hword : isWordChar c = false := hs c hc
  refine ⟨?_, ?_, ?_⟩
  · by_contra hno
    rw [isWordChar_of_isHexDigit (by simpa using hno)] at hword
    cases hword
  · by_contra hno
    rw [isWordChar_of_isDigit (by simpa using hno)] at hword
    cases hword
  · by_contra hno
    rcases isSuffix_iff.mp (by simpa using hno) with rfl | rfl <;> exact absurd hword (by decide)

namespace Numeral

variable (n : Numeral) {s : List Char}

/-- A number has one suffix or none. -/
theorem suffix_cases : n.suffix.toList = [] ∨ ∃ c, n.suffix.toList = [c] ∧ isSuffix c = true := by
  cases hx : n.suffix with
  | none => exact Or.inl rfl
  | some c => exact Or.inr ⟨c, rfl, n.suffix_u c hx⟩

/-- The text of a hexadecimal number. -/
theorem text_of_hex {x : Char} (hx : n.hex = some x) :
    n.text = '0' :: x :: (n.digits ++ n.suffix.toList) := by
  rw [text, hx]
  rfl

/-- The text of a decimal number. -/
theorem text_of_dec (hx : n.hex = none) : n.text = n.digits ++ n.suffix.toList := by
  rw [text, hx]
  rfl

/-- The first rule takes the whole of a hexadecimal number. -/
theorem longest_hexRule {x : Char} (hx : n.hex = some x) (hs : Clear false s) :
    longest hexRule (n.text ++ s) = some n.text.length := by
  have hxx : (x == 'x' || x == 'X') = true := by
    rcases n.hex_x x hx with rfl | rfl <;> rfl
  have hrun := longest_many1_opt n.digits_ne (n.digits_of_hex hx) n.suffix_cases
    (fun c => isHexDigit_of_isSuffix) fun c hc => ⟨(hs.not_word c hc).1, (hs.not_word c hc).2.2⟩
  rw [n.text_of_hex hx, List.cons_append, List.cons_append, hexRule, longest_one_seq,
    if_pos (by decide), longest_one_seq, if_pos hxx, hrun, List.length_cons, List.length_cons,
    Option.map_some, Option.map_some]
  exact congrArg some (by omega)

/-- The second rule takes the whole of a decimal number. -/
theorem longest_decRule (hx : n.hex = none) (hs : Clear false s) :
    longest decRule (n.text ++ s) = some n.text.length := by
  rw [n.text_of_dec hx]
  refine longest_many1_opt n.digits_ne (n.digits_of_dec hx) n.suffix_cases (fun c hc => ?_)
    fun c hc => (hs.not_word c hc).2
  rcases isSuffix_iff.mp hc with rfl | rfl <;> decide

/-- Behind the first digit of a decimal number there is no `x`. -/
theorem second_ne_x (hx : n.hex = none) (hs : Clear false s) :
    ∀ c ∈ (n.digits.tail ++ n.suffix.toList ++ s).head?, c ≠ 'x' ∧ c ≠ 'X' := by
  intro c hc
  cases hd : n.digits.tail with
  | cons d ds =>
      rw [hd] at hc
      obtain rfl : d = c := by simpa using hc
      have hdig := n.digits_of_dec hx d (List.mem_of_mem_tail (by rw [hd]; simp))
      constructor <;> (rintro rfl; exact absurd hdig (by decide))
  | nil =>
      rw [hd] at hc
      rcases n.suffix_cases with hu | ⟨u, hu, hu'⟩
      · rw [hu] at hc
        have hword := hs c hc
        constructor <;> (rintro rfl; exact absurd hword (by decide))
      · rw [hu] at hc
        obtain rfl : u = c := by simpa using hc
        rcases isSuffix_iff.mp hu' with rfl | rfl <;> decide

/-- The first rule takes nothing of a decimal number. -/
theorem longest_hexRule_none (hx : n.hex = none) (hs : Clear false s) :
    longest hexRule (n.text ++ s) = none := by
  have hsecond := n.second_ne_x hx hs
  rw [n.text_of_dec hx]
  cases hd : n.digits with
  | nil => exact absurd hd n.digits_ne
  | cons d ds =>
      rw [hd, List.tail_cons] at hsecond
      rw [List.cons_append, List.cons_append, hexRule, longest_one_seq]
      split_ifs
      · cases htail : ds ++ n.suffix.toList ++ s with
        | nil => rfl
        | cons c r =>
            have hne := hsecond c (by rw [htail]; rfl)
            rw [longest_one_seq, if_neg (by simp [hne])]
            rfl
      · rfl

/-- A number begins with a decimal digit. -/
theorem exists_text_eq : ∃ c r, n.text = c :: r ∧ isDigit c = true := by
  cases hx : n.hex with
  | some x => exact ⟨'0', _, n.text_of_hex hx, by decide⟩
  | none =>
      cases hd : n.digits with
      | nil => exact absurd hd n.digits_ne
      | cons d ds =>
          refine ⟨d, ds ++ n.suffix.toList, by rw [n.text_of_dec hx, hd]; rfl, ?_⟩
          exact n.digits_of_dec hx d (by rw [hd]; simp)

end Numeral

/-- The rules of numbers. -/
theorem firstMatch_num (n : Numeral) {s : List Char} (hs : Clear false s) :
    firstMatch rules (n.text ++ s) = some (some .num, n.text.length) := by
  obtain ⟨c, r, htext, hdigit⟩ := n.exists_text_eq
  have hwords := firstMatch_words (s := r ++ s) (Or.inl (isWordChar_of_isDigit hdigit))
  rw [← List.cons_append, ← htext] at hwords
  rw [hwords]
  cases hx : n.hex with
  | some x => exact firstMatch_of_longest (n.longest_hexRule hx hs)
  | none =>
      rw [firstMatch_cons_none (n.longest_hexRule_none hx hs)]
      exact firstMatch_of_longest (n.longest_decRule hx hs)

/-- The rule of registers. -/
theorem firstMatch_reg (r : RegName) {s : List Char} (hs : Clear false s) :
    firstMatch rules (r.text ++ s) = some (some .reg, r.text.length) := by
  rw [RegName.text, List.cons_append, firstMatch_words (Or.inr rfl), firstMatch_cons_none,
    firstMatch_cons_none]
  · refine firstMatch_of_longest ?_
    rw [regRule, longest_one_seq, if_pos (by decide), longest_many1 r.name_ne r.name_all hs,
      List.length_cons, Nat.add_comm]
    rfl
  · exact longest_many1_seq_none fun c hc => by cases hc; decide
  · rw [hexRule, longest_one_seq, if_neg (by decide)]

/-! ## Tokens -/

/-- `make_token` takes a text for a list of tokens. -/
def Lexes (s : List Char) (ts : List Token) : Prop :=
  ∀ fuel, s.length ≤ fuel → makeToken fuel s = .ok (some ts)

/-- The end of the text has no tokens. -/
theorem lexes_nil : Lexes [] [] := by
  intro fuel _
  cases fuel <;> rfl

variable {s w b : List Char} {ts l : List Token} {t : Token} {type : Option TokenType}
  {e e' : Bool}

/-- A token is read after the other. -/
theorem Lexes.step (hm : firstMatch rules (w ++ s) = some (type, w.length)) (hs : Lexes s ts) :
    Lexes (w ++ s) (newToken type w ++ ts) := by
  intro fuel hfuel
  have hpos := rules_pos hm
  cases w with
  | nil => exact absurd hpos (by decide)
  | cons c w =>
      rw [List.cons_append, List.length_cons, List.length_append] at hfuel
      obtain ⟨fuel, rfl⟩ := Nat.exists_eq_add_one_of_ne_zero (show fuel ≠ 0 by omega)
      rw [List.cons_append] at hm ⊢
      rw [makeToken, hm]
      simp only
      rw [← List.cons_append, List.drop_left, List.take_left, hs fuel (by omega)]
      rfl

/-- Blanks are skipped. -/
theorem Lexes.blanks (hb : ∀ c ∈ b, isBlank c = true) (hhead : ∀ c ∈ s.head?, isBlank c = false)
    (hs : Lexes s ts) : Lexes (b ++ s) ts := by
  cases b with
  | nil => exact hs
  | cons c b =>
      have hm : firstMatch rules (c :: b ++ s) = some (none, (c :: b).length) :=
        firstMatch_of_longest (longest_many1 (by simp) hb hhead)
      exact Lexes.step hm hs

/-- A token is found where what follows is clear of it. -/
theorem Spells.lexes (ht : Spells t w) (hfollow : Kind.follow e (kind t) = some e')
    (hs : Clear e' s) (h : Lexes s ts) : Lexes (w ++ s) (raw t :: ts) := by
  cases ht with
  | num n =>
      obtain ⟨-, rfl⟩ := Kind.follow_operand_iff.mp hfollow
      exact h.step (firstMatch_num n hs)
  | reg r =>
      obtain ⟨-, rfl⟩ := Kind.follow_operand_iff.mp hfollow
      exact h.step (firstMatch_reg r hs)
  | @operator type hnum hreg =>
      have hclear : type ≠ .rpar → Clear true s := by
        intro hr
        have he' := Kind.eq_true_of_follow hfollow
          (mt kind_operand_iff.mp (not_or.mpr ⟨hnum, hreg⟩)) (mt kind_rpar_iff.mp hr)
        exact he' ▸ hs
      have hstep := h.step (firstMatch_operator hnum hreg hclear)
      have hnew : newToken (some (rawType type)) (symbol type) = [raw ⟨type, []⟩] := by
        cases type <;> first | exact absurd rfl hnum | exact absurd rfl hreg | rfl
      rw [hnew] at hstep
      exact hstep

/-- A token begins with no blank, and where it may stand it does not run into what is to its
left. -/
theorem Spells.head (ht : Spells t w) (hfollow : Kind.follow e (kind t) = some e') :
    ∃ c r, w = c :: r ∧ isBlank c = false ∧ (if e then isTail c else isWordChar c) = false := by
  cases ht with
  | num n =>
      obtain ⟨rfl, -⟩ := Kind.follow_operand_iff.mp hfollow
      obtain ⟨d, ds, htext, hdig⟩ := n.exists_text_eq
      refine ⟨d, ds, htext, ?_, ?_⟩
      · by_contra hno
        rcases isBlank_iff.mp (by simpa using hno) with rfl | rfl | rfl <;>
          exact absurd hdig (by decide)
      · by_contra hno
        simp only [if_true, isTail, Bool.not_eq_false, Bool.or_eq_true, beq_iff_eq,
          or_assoc] at hno
        rcases hno with rfl | rfl | rfl | rfl | rfl <;> exact absurd hdig (by decide)
  | reg r =>
      obtain ⟨rfl, -⟩ := Kind.follow_operand_iff.mp hfollow
      exact ⟨'$', r.name, rfl, by decide, by decide⟩
  | @operator type hnum hreg =>
      cases e <;> cases type <;> simp [kind, Kind.follow] at hfollow <;>
        first
          | exact ⟨_, _, rfl, by decide, by decide⟩
          | exact absurd rfl hnum
          | exact absurd rfl hreg

/-- What is expected next does not run into what is to its left. -/
theorem Spaced.clear (h : Spaced l s) (hscan : scan kind e l = some e') : Clear e s := by
  have hblank : ∀ c, isBlank c = true → (if e then isTail c else isWordChar c) = false := by
    intro c hc
    cases e <;> rcases isBlank_iff.mp hc with rfl | rfl | rfl <;> decide
  intro c hc
  cases h with
  | @nil b hb => exact hblank c (hb c (List.mem_of_mem_head? hc))
  | @cons b w s t l hb ht h =>
      cases b with
      | cons d b =>
          obtain rfl : d = c := by simpa using hc
          exact hblank d (hb d (by simp))
      | nil =>
          obtain ⟨d, hd, -⟩ := scan_cons_iff.mp hscan
          obtain ⟨c', r, rfl, -, hclear⟩ := ht.head hd
          obtain rfl : c' = c := by simpa using hc
          exact hclear

/-- **The tokens of a text are found again.** -/
theorem lexes_of_spaced (h : Spaced l s) (hscan : scan kind e l = some e') :
    Lexes s (l.map raw) := by
  induction h generalizing e with
  | @nil b hb =>
      have hblanks := Lexes.blanks hb (s := []) (by simp) lexes_nil
      rwa [List.append_nil] at hblanks
  | @cons b w s t l hb ht h ih =>
      obtain ⟨d, hd, hl⟩ := scan_cons_iff.mp hscan
      refine Lexes.blanks hb ?_ (ht.lexes hd (h.clear hl) (ih hl))
      obtain ⟨c, r, rfl, hblank, -⟩ := ht.head hd
      intro c' hc'
      obtain rfl : c = c' := by simpa using hc'
      exact hblank

/-- **The tokens of an expression are found again**, with its unary operators. -/
theorem tokenize_of_spaced (h : Spaced l s) (hscan : scan kind true l = some e') :
    tokenize s = some l := by
  rw [tokenize, lexes_of_spaced h hscan _ le_rfl]
  exact congrArg some (matchUnaryTokens_raw hscan rfl)

end Sdb

end Bailuwan
