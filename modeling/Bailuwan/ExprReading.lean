/-
# What the debuggers read

`eval` and `syntax_check_impl` go over ranges of the token array by index.  The range they
are called for is a list of tokens (`At`), and what they do with it is what is done with its
reading: `eval_eq` evaluates the reading of the range, and `syntaxCheckImpl_eq` tells whether
it has no gaps.  The two end with these results whenever they may call themselves once more
than there are tokens, so no access of theirs is outside of the array.
-/
import Bailuwan.Expr
import Bailuwan.OperatorReading

namespace Bailuwan

namespace Sdb

open OperatorReading

/-! ## Kinds of tokens -/

/-- What a token is to `find_dominant_operator`. -/
def kind (t : Token) : Kind :=
  match t.type with
  | .num | .reg => .operand
  | .lpar => .lpar
  | .rpar => .rpar
  | .unaryNot | .unaryLnot | .unaryMinus | .unaryDeref => .unary
  | .mul | .div | .rem => .binary 90
  | .add | .sub => .binary 80
  | .shl | .lshr | .ashr => .binary 70
  | .le | .ge | .lt | .gt => .binary 60
  | .eq | .ne => .binary 50
  | .and => .binary 40
  | .xor => .binary 30
  | .or => .binary 20
  | .land => .binary 10
  | .lor => .binary 0

variable {t u : Token}

/-- The token of an opening parenthesis. -/
theorem kind_lpar_iff : kind t = .lpar ↔ t.type = .lpar := by
  obtain ⟨type, str⟩ := t
  cases type <;> simp [kind]

/-- The token of a closing parenthesis. -/
theorem kind_rpar_iff : kind t = .rpar ↔ t.type = .rpar := by
  obtain ⟨type, str⟩ := t
  cases type <;> simp [kind]

/-- The tokens that are operands. -/
theorem kind_operand_iff : kind t = .operand ↔ t.type = .num ∨ t.type = .reg := by
  obtain ⟨type, str⟩ := t
  cases type <;> simp [kind]

/-- The tokens that are unary operators. -/
theorem kind_unary_iff : kind t = .unary ↔ t.type.isUnary = true := by
  obtain ⟨type, str⟩ := t
  cases type <;> simp [kind, TokenType.isUnary]

/-- Every other operator is binary. -/
theorem isUnary_eq_false {op : Token} (h : kind op ≠ .unary) : op.type.isUnary = false := by
  rw [← Bool.not_eq_true]
  exact mt kind_unary_iff.mpr h

/-- An operator is unary or binary. -/
theorem kind_isOp : (kind t).isOp = (t.type.isBinary || t.type.isUnary) := by
  obtain ⟨type, str⟩ := t
  cases type <;> rfl

/-- An operator that is not unary is binary. -/
theorem isBinary_of_kind (ho : (kind t).isOp = true) (hu : kind t ≠ .unary) :
    t.type.isBinary = true := by
  rw [kind_isOp, Bool.or_eq_true] at ho
  rcases ho with ho | ho
  · exact ho
  · exact absurd (kind_unary_iff.mpr ho) hu

/-- `get_precedence` in terms of kinds. -/
def precedence : Kind → ℤ
  | .binary p => p
  | _ => 100

/-- `get_precedence` is the precedence of the kind. -/
theorem getPrecedence_eq (h : (kind t).isOp = true) :
    getPrecedence t.type = .ok (precedence (kind t)) := by
  obtain ⟨type, str⟩ := t
  cases type <;> first | rfl | exact absurd h (by simp [kind, Kind.isOp])

/-- Unary operators bind tightest. -/
theorem kind_binary_lt {p : ℕ} (h : kind t = .binary p) : p < 100 := by
  obtain ⟨type, str⟩ := t
  cases type <;> simp [kind] at h <;> omega

/-- Precedences compare as numbers. -/
theorem precedence_lt_iff (ht : (kind t).isOp = true) (hu : (kind u).isOp = true) :
    precedence (kind t) < precedence (kind u) ↔ (kind t).prec < (kind u).prec := by
  cases hkt : kind t with
  | binary p =>
      have hp := kind_binary_lt hkt
      cases hku : kind u with
      | binary q => simp [precedence]
      | unary => simp [precedence, hp]
      | operand => simp [hku, Kind.isOp] at hu
      | lpar => simp [hku, Kind.isOp] at hu
      | rpar => simp [hku, Kind.isOp] at hu
  | unary =>
      cases hku : kind u with
      | binary q =>
          have hq := kind_binary_lt hku
          simp [precedence]
          omega
      | unary => simp [precedence]
      | operand => simp [hku, Kind.isOp] at hu
      | lpar => simp [hku, Kind.isOp] at hu
      | rpar => simp [hku, Kind.isOp] at hu
  | operand => simp [hkt, Kind.isOp] at ht
  | lpar => simp [hkt, Kind.isOp] at ht
  | rpar => simp [hkt, Kind.isOp] at ht

/-! ## Ranges -/

@[simp] theorem ok_bind {α β : Type} (a : α) (f : α → Except Fault β) :
    (Except.ok a >>= f) = f a := rfl

/-- The tokens from index `p` on begin with `l`. -/
def At (tokens : List Token) (p : ℤ) (l : List Token) : Prop :=
  ∃ before after, tokens = before ++ (l ++ after) ∧ (before.length : ℤ) = p

variable {tokens l a b : List Token} {p : ℤ}

/-- The whole of the tokens stands at the beginning. -/
theorem at_zero : At tokens 0 tokens := ⟨[], [], by simp, rfl⟩

namespace At

/-- Positions are not negative. -/
theorem nonneg (h : At tokens p l) : 0 ≤ p := by
  obtain ⟨before, after, -, rfl⟩ := h
  exact Int.natCast_nonneg _

/-- A part at the beginning stands where the whole does. -/
theorem left (h : At tokens p (a ++ b)) : At tokens p a := by
  obtain ⟨before, after, rfl, rfl⟩ := h
  exact ⟨before, b ++ after, by simp, rfl⟩

/-- A part at the end stands after the one before it. -/
theorem right (h : At tokens p (a ++ b)) : At tokens (p + a.length) b := by
  obtain ⟨before, after, rfl, rfl⟩ := h
  exact ⟨before ++ a, after, by simp, by simp⟩

theorem tail (h : At tokens p (t :: l)) : At tokens (p + 1) l := right (a := [t]) h

/-- `tokens[p]` is the first of what stands there. -/
theorem tokenAt_eq (h : At tokens p (t :: l)) : tokenAt tokens p = .ok t := by
  obtain ⟨before, after, rfl, rfl⟩ := h
  simp [tokenAt]

end At

/-! ## Parentheses -/

/-- After an opening parenthesis, the loop finds out whether the closing one at `q` belongs
to it. -/
theorem parenthesesLoop_eq {rp : Token} (h : At tokens p (l ++ [rp])) (hrp : kind rp = .rpar)
    (c : ℕ) : parenthesesLoop tokens (p + l.length) (l.length + 1) p (c + 1) =
      .ok (closes kind c l, false) := by
  have hrp' := kind_rpar_iff.mp hrp
  induction l generalizing p c with
  | nil =>
      rw [List.nil_append] at h
      rw [List.length_nil, parenthesesLoop, h.tokenAt_eq, ok_bind, hrp', if_neg (by decide),
        if_pos rfl, if_neg (by simp), if_neg (by omega), parenthesesLoop, closes]
      by_cases hc : c = 0 <;> simp [hc]
  | cons t l ih =>
      have hlen : p + ((t :: l).length : ℤ) = p + 1 + l.length := by
        rw [List.length_cons]
        push_cast
        omega
      rw [List.cons_append] at h
      rw [parenthesesLoop, h.tokenAt_eq, ok_bind, hlen]
      by_cases hl : kind t = .lpar
      · rw [if_pos (kind_lpar_iff.mp hl), closes_lpar hl]
        exact ih h.tail (c + 1)
      · rw [if_neg (mt kind_lpar_iff.mpr hl)]
        by_cases hr : kind t = .rpar
        · rw [if_pos (kind_rpar_iff.mp hr), closes_rpar hr]
          cases c with
          | zero => rw [if_pos ⟨by simp, by omega⟩]; simp
          | succ c =>
              rw [if_neg (by push_cast; omega), if_neg (by push_cast; omega)]
              have := ih h.tail c
              simpa using this
        · rw [if_neg (mt kind_rpar_iff.mpr hr), closes_other hl hr]
          exact ih h.tail c

/-- **`check_parentheses`** finds the parentheses that match each other around a range; it
never takes the expression for invalid. -/
theorem checkParentheses_eq (h : At tokens p l) (hlen : 2 ≤ l.length) :
    checkParentheses tokens p (p + l.length - 1) = .ok ((enclosed kind l).isSome, false) := by
  match l, hlen with
  | t :: u :: rest, _ =>
      rcases List.eq_nil_or_concat (u :: rest) with hnil | ⟨m, e, hm⟩
      · cases hnil
      rw [List.concat_eq_append] at hm
      rw [hm] at h ⊢
      have hlast : p + ((t :: (m ++ [e])).length : ℤ) - 1 = p + (t :: m).length := by
        simp only [List.length_cons, List.length_append, List.length_nil]
        push_cast
        omega
      have hat : At tokens p ((t :: m) ++ [e]) := h
      rw [checkParentheses, h.tokenAt_eq, ok_bind, hlast, hat.right.tokenAt_eq]
      by_cases hl : kind t = .lpar
      · rw [if_neg (not_not.mpr (kind_lpar_iff.mp hl)), ok_bind]
        by_cases hr : kind e = .rpar
        · rw [if_neg (not_not.mpr (kind_rpar_iff.mp hr))]
          have hcount : (p + ((t :: m).length : ℤ) + 1 - p).toNat = (m.length + 1) + 1 := by
            rw [List.length_cons]
            omega
          have hq : p + ((t :: m).length : ℤ) = p + 1 + m.length := by
            rw [List.length_cons]
            push_cast
            omega
          rw [hcount, parenthesesLoop, h.tokenAt_eq, ok_bind, if_pos (kind_lpar_iff.mp hl), hq]
          have hloop := parenthesesLoop_eq h.tail hr 0
          rw [Int.natCast_zero] at hloop
          rw [hloop]
          simp only [enclosed, List.getLast?_concat, List.dropLast_concat, hl, hr, true_and]
          cases closes kind 0 m <;> rfl
        · rw [if_pos (mt kind_rpar_iff.mpr hr)]
          simp [enclosed, hr]
          rfl
      · rw [if_pos (mt kind_lpar_iff.mpr hl)]
        simp [enclosed, hl]
        rfl

/-! ## The dominant operator -/

/-- The index that the loop ends with. -/
def found (minPrec idx i : ℤ) : Option (List Token × Token × List Token) → ℤ
  | some (left, op, _) => if precedence (kind op) ≤ minPrec then i + left.length else idx
  | none => idx

/-- Only parentheses change the depth. -/
theorem shift_of_not_paren (hl : t.type ≠ .lpar) (hr : t.type ≠ .rpar) : (kind t).shift = 0 := by
  have hl' := mt kind_lpar_iff.mp hl
  have hr' := mt kind_rpar_iff.mp hr
  cases hk : kind t with
  | lpar => exact absurd hk hl'
  | rpar => exact absurd hk hr'
  | _ => rfl

variable {minPrec idx paren i : ℤ}

/-- A token that is not looked at leaves what is found as it is. -/
theorem found_skip (hout : outside kind paren t = false) :
    found minPrec idx i (split kind paren (t :: l)) =
      found minPrec idx (i + 1) (split kind (paren + (kind t).shift) l) := by
  cases hs : split kind (paren + (kind t).shift) l with
  | none =>
      rw [split_cons_of_none hs, hout]
      rfl
  | some s =>
      obtain ⟨x, o, y⟩ := s
      rw [split_cons_of_some hs, hout, Bool.false_and, if_neg (by decide), found, found,
        List.length_cons]
      push_cast
      rw [Int.add_assoc, Int.add_comm 1]

/-- An operator is kept as the best so far if it is no tighter than the one before, and what
follows is compared with the better of the two. -/
theorem found_operator (hout : outside kind paren t = true) :
    found minPrec idx i (split kind paren (t :: l)) =
      if precedence (kind t) ≤ minPrec then
        found (precedence (kind t)) i (i + 1) (split kind paren l)
      else found minPrec idx (i + 1) (split kind paren l) := by
  have hop : (kind t).isOp = true := (Bool.and_eq_true_iff.mp hout).2
  have hshift : paren + (kind t).shift = paren := by
    rw [shift_of_outside hout, Int.add_zero]
  cases hs : split kind paren l with
  | none =>
      rw [split_cons_of_none (hshift.symm ▸ hs), if_pos hout]
      simp [found]
  | some s =>
      obtain ⟨x, o, y⟩ := s
      have hlt := precedence_lt_iff hop (dominates_of_split hs).2.isOp
      have hlen : i + ((t :: x).length : ℤ) = i + 1 + x.length := by
        rw [List.length_cons]
        push_cast
        omega
      rw [split_cons_of_some (hshift.symm ▸ hs), hout, Bool.true_and]
      by_cases hbetter : (kind t).prec < (kind o).prec
      · -- the operator is looser than what follows
        have hprec := hlt.mpr hbetter
        rw [if_pos (decide_eq_true hbetter), found, found, found]
        by_cases hle : precedence (kind t) ≤ minPrec
        · rw [if_pos hle, if_pos hle, if_neg (by omega)]
          simp
        · rw [if_neg hle, if_neg hle, if_neg (by omega)]
      · -- what follows is as loose, and comes later
        have hprec := mt hlt.mp hbetter
        rw [if_neg (mt of_decide_eq_true hbetter), found, found, found, hlen]
        by_cases hle : precedence (kind t) ≤ minPrec
        · rw [if_pos hle, if_pos (by omega), if_pos (by omega)]
        · rw [if_neg hle]

/-- The loop of `get_dominant` finds what the list is split at. -/
theorem dominantLoop_eq (h : At tokens i l) : dominantLoop tokens l.length i minPrec idx paren =
    .ok (found minPrec idx i (split kind paren l)) := by
  induction l generalizing i minPrec idx paren with
  | nil => rfl
  | cons t l ih =>
      rw [List.length_cons, dominantLoop, h.tokenAt_eq, ok_bind]
      by_cases hl : t.type = .lpar
      · have hk := kind_lpar_iff.mpr hl
        rw [if_pos hl, ih h.tail, found_skip (by simp [outside, hk, Kind.isOp]), hk]
        rfl
      rw [if_neg hl]
      by_cases hr : t.type = .rpar
      · have hk := kind_rpar_iff.mpr hr
        rw [if_pos hr, ih h.tail, found_skip (by simp [outside, hk, Kind.isOp]), hk]
        rfl
      have hshift : paren + (kind t).shift = paren := by
        rw [shift_of_not_paren hl hr, Int.add_zero]
      rw [if_neg hr]
      by_cases hparen : paren > 0
      · rw [if_pos hparen, ih h.tail, found_skip (by simp [outside]; omega), hshift]
      rw [if_neg hparen, ← kind_isOp]
      by_cases hop : (kind t).isOp = true
      · rw [if_pos hop, getPrecedence_eq hop, ok_bind,
          found_operator (by simp [outside, hop]; omega)]
        by_cases hle : precedence (kind t) ≤ minPrec
        · rw [if_pos hle, if_pos hle, ih h.tail]
        · rw [if_neg hle, if_neg hle, ih h.tail]
      · rw [if_neg hop, ih h.tail, found_skip (by simp [outside, hop]), hshift]

/-- **`find_dominant_operator`** finds the last of the loosest operators outside of
parentheses. -/
theorem findDominantOperator_eq (h : At tokens p l) :
    findDominantOperator tokens p (p + l.length - 1) =
      .ok ((split kind 0 l).map fun s => p + s.1.length) := by
  have hcount : (p + (l.length : ℤ) - 1 + 1 - p).toNat = l.length := by omega
  rw [findDominantOperator, hcount, dominantLoop_eq h, ok_bind]
  cases hs : split kind 0 l with
  | none => rfl
  | some s =>
      obtain ⟨x, o, y⟩ := s
      have hp := h.nonneg
      have hprec : precedence (kind o) ≤ intMax := by
        unfold intMax
        cases hk : kind o with
        | binary q =>
            have := kind_binary_lt hk
            simp only [precedence]
            omega
        | _ => simp [precedence]
      rw [found, if_pos hprec, if_neg (by omega)]
      rfl

/-! ## Evaluation -/

variable {V : Type} (S : Semantics V)

/-- The value of a reading: what is dropped has no part in it, and neither has what comes
after a failure. -/
def evalReading : Reading Token → Except Fault (Option V)
  | .nothing => .ok none
  | .leaf t =>
      if t.type = .num then S.number t.str
      else if t.type = .reg then S.register t.str
      else .ok none
  | .paren r => evalReading r
  | .un _ op r => do
      match ← evalReading r with
      | none => .ok none
      | some val => S.unary op.type val
  | .bin l op r => do
      match ← evalReading l with
      | none => .ok none
      | some val1 =>
          match ← evalReading r with
          | none => .ok none
          | some val2 => S.binary op.type val1 val2

variable {S} {r : Reading Token}

/-- The dominant operator of a range, the range to its left and the one to its right. -/
theorem at_split {op : Token} (h : At tokens p l) (hs : split kind 0 l = some (a, op, b)) :
    At tokens p a ∧ tokenAt tokens (p + a.length) = .ok op ∧ At tokens (p + a.length + 1) b ∧
      p + (l.length : ℤ) - 1 = p + a.length + 1 + b.length - 1 := by
  obtain ⟨rfl, -⟩ := dominates_of_split hs
  refine ⟨h.left, h.right.tokenAt_eq, h.right.tail, ?_⟩
  simp only [List.length_append, List.length_cons]
  push_cast
  omega

/-- The range in a pair of parentheses. -/
theorem at_enclosed {m : List Token} (h : At tokens p l) (hi : enclosed kind l = some m) :
    At tokens (p + 1) m ∧ p + (l.length : ℤ) - 1 - 1 = p + 1 + m.length - 1 := by
  obtain ⟨lp, rp, rfl, -⟩ := enclosed_eq_some_iff.mp hi
  refine ⟨h.tail.left, ?_⟩
  simp only [List.length_cons, List.length_append, List.length_nil]
  push_cast
  omega

/-- **`eval` evaluates the reading of a range**, with calls enough. -/
theorem eval_eq (hr : Reads kind l r) {fuel : ℕ} (h : At tokens p l) (hfuel : l.length < fuel) :
    eval S tokens fuel p (p + l.length - 1) = evalReading S r := by
  induction hr generalizing fuel p with
  | nil =>
      obtain ⟨fuel, rfl⟩ := Nat.exists_eq_add_one_of_ne_zero (Nat.ne_zero_of_lt hfuel)
      rw [eval, if_pos (by simp)]
      rfl
  | leaf t =>
      obtain ⟨fuel, rfl⟩ := Nat.exists_eq_add_one_of_ne_zero (Nat.ne_zero_of_lt hfuel)
      rw [eval, if_neg (by simp), if_pos (by simp), h.tokenAt_eq, ok_bind]
      rfl
  | @paren l m r hi hm ih =>
      obtain ⟨fuel, rfl⟩ := Nat.exists_eq_add_one_of_ne_zero (Nat.ne_zero_of_lt hfuel)
      have hlen := two_le_length_of_enclosed hi
      have hlt := length_enclosed hi
      obtain ⟨hat, hend⟩ := at_enclosed h hi
      rw [eval, if_neg (by omega), if_neg (by omega), checkParentheses_eq h hlen, ok_bind, hi]
      simp only [Option.isSome_some, if_true]
      rw [hend, ih hat (by omega)]
      rfl
  | @stuck l hlen hi hs =>
      obtain ⟨fuel, rfl⟩ := Nat.exists_eq_add_one_of_ne_zero (Nat.ne_zero_of_lt hfuel)
      rw [eval, if_neg (by omega), if_neg (by omega), checkParentheses_eq h hlen, ok_bind, hi,
        findDominantOperator_eq h, hs]
      rfl
  | @un l a b op r hlen hi hs ho hb ih =>
      obtain ⟨fuel, rfl⟩ := Nat.exists_eq_add_one_of_ne_zero (Nat.ne_zero_of_lt hfuel)
      obtain ⟨-, hop, hat, hend⟩ := at_split h hs
      have hlt := (length_split hs).2
      rw [eval, if_neg (by omega), if_neg (by omega), checkParentheses_eq h hlen, ok_bind, hi,
        findDominantOperator_eq h, hs]
      simp only [Option.isSome_none, Option.map_some, ok_bind, hop, kind_unary_iff.mp ho,
        if_true, Bool.false_eq_true, if_false]
      rw [hend, ih hat (by omega)]
      rfl
  | @bin l a b op x y hlen hi hs ho ha hb iha ihb =>
      obtain ⟨fuel, rfl⟩ := Nat.exists_eq_add_one_of_ne_zero (Nat.ne_zero_of_lt hfuel)
      obtain ⟨hata, hop, hatb, hend⟩ := at_split h hs
      obtain ⟨hlta, hltb⟩ := length_split hs
      have hbin := isBinary_of_kind (dominates_of_split hs).2.isOp ho
      have hun := isUnary_eq_false ho
      rw [eval, if_neg (by omega), if_neg (by omega), checkParentheses_eq h hlen, ok_bind, hi,
        findDominantOperator_eq h, hs]
      simp only [Option.isSome_none, Option.map_some, ok_bind, hop, hun, hbin,
        Bool.false_eq_true, Bool.true_eq_false, if_false]
      rw [hend, iha hata (by omega), ihb hatb (by omega)]
      rfl

/-! ## The syntax check -/

instance decidableComplete : (r : Reading Token) → Decidable r.Complete
  | .nothing => .isFalse id
  | .leaf _ => .isTrue trivial
  | .paren r => decidableComplete r
  | .un _ _ r => decidableComplete r
  | .bin l _ r => @instDecidableAnd _ _ (decidableComplete l) (decidableComplete r)

/-- **`syntax_check_impl`** looks for gaps in the reading of a range. -/
theorem syntaxCheckImpl_eq (hr : Reads kind l r) {fuel : ℕ} (h : At tokens p l)
    (hfuel : l.length < fuel) :
    syntaxCheckImpl tokens fuel p (p + l.length - 1) = .ok (decide r.Complete) := by
  induction hr generalizing fuel p with
  | nil =>
      obtain ⟨fuel, rfl⟩ := Nat.exists_eq_add_one_of_ne_zero (Nat.ne_zero_of_lt hfuel)
      rw [syntaxCheckImpl, if_pos (by simp)]
      rfl
  | leaf t =>
      obtain ⟨fuel, rfl⟩ := Nat.exists_eq_add_one_of_ne_zero (Nat.ne_zero_of_lt hfuel)
      rw [syntaxCheckImpl, if_neg (by simp), if_pos (by simp)]
      rfl
  | @paren l m r hi hm ih =>
      obtain ⟨fuel, rfl⟩ := Nat.exists_eq_add_one_of_ne_zero (Nat.ne_zero_of_lt hfuel)
      have hlen := two_le_length_of_enclosed hi
      have hlt := length_enclosed hi
      obtain ⟨hat, hend⟩ := at_enclosed h hi
      rw [syntaxCheckImpl, if_neg (by omega), if_neg (by omega), checkParentheses_eq h hlen,
        ok_bind, hi]
      simp only [Option.isSome_some, if_true]
      rw [hend, ih hat (by omega)]
      rfl
  | @stuck l hlen hi hs =>
      obtain ⟨fuel, rfl⟩ := Nat.exists_eq_add_one_of_ne_zero (Nat.ne_zero_of_lt hfuel)
      rw [syntaxCheckImpl, if_neg (by omega), if_neg (by omega), checkParentheses_eq h hlen,
        ok_bind, hi, findDominantOperator_eq h, hs]
      rfl
  | @un l a b op r hlen hi hs ho hb ih =>
      obtain ⟨fuel, rfl⟩ := Nat.exists_eq_add_one_of_ne_zero (Nat.ne_zero_of_lt hfuel)
      obtain ⟨-, hop, hat, hend⟩ := at_split h hs
      have hlt := (length_split hs).2
      rw [syntaxCheckImpl, if_neg (by omega), if_neg (by omega), checkParentheses_eq h hlen,
        ok_bind, hi, findDominantOperator_eq h, hs]
      simp only [Option.isSome_none, Option.map_some, ok_bind, hop, kind_unary_iff.mp ho,
        if_true, Bool.false_eq_true, if_false]
      rw [hend, ih hat (by omega)]
      rfl
  | @bin l a b op x y hlen hi hs ho ha hb iha ihb =>
      obtain ⟨fuel, rfl⟩ := Nat.exists_eq_add_one_of_ne_zero (Nat.ne_zero_of_lt hfuel)
      obtain ⟨hata, hop, hatb, hend⟩ := at_split h hs
      obtain ⟨hlta, hltb⟩ := length_split hs
      have hun := isUnary_eq_false ho
      rw [syntaxCheckImpl, if_neg (by omega), if_neg (by omega), checkParentheses_eq h hlen,
        ok_bind, hi, findDominantOperator_eq h, hs]
      simp only [Option.isSome_none, Option.map_some, ok_bind, hop, hun, Bool.false_eq_true,
        if_false]
      rw [hend, iha hata (by omega), ihb hatb (by omega), ok_bind]
      by_cases hx : x.Complete
      · simp [hx, Reading.Complete]
      · simp [hx, Reading.Complete]

/-! ## The tokenizer -/

theorem operatorRules_ne_nil : ∀ r ∈ operatorRules, r.1 ≠ [] := by decide

/-- Every rule consumes a character. -/
theorem rules_pos {type : Option TokenType} {s : List Char} {n : ℕ}
    (h : Lexer.firstMatch rules s = some (type, n)) : 0 < n := by
  obtain ⟨rule, hmem, -, hlen⟩ := Lexer.exists_of_firstMatch h
  refine Lexer.longest_pos hlen ?_
  simp only [rules, List.mem_cons, List.mem_append, List.mem_map, List.not_mem_nil,
    or_false] at hmem
  rcases hmem with (rfl | ⟨r, hr, rfl⟩) | rfl | rfl | rfl
  · exact Lexer.not_matches_many1_nil
  · exact fun hm => operatorRules_ne_nil r hr (Lexer.matches_lit_iff.mp hm).symm
  · exact Lexer.not_matches_one_seq_nil
  · exact Lexer.not_matches_many1_seq_nil
  · exact Lexer.not_matches_one_seq_nil

/-- `make_token` ends, and returns the same with more steps. -/
theorem makeToken_total (e : List Char) : ∃ ts, ∀ fuel, e.length ≤ fuel →
    makeToken fuel e = .ok ts := by
  generalize hn : e.length = n
  induction n using Nat.strong_induction_on generalizing e with
  | _ n ih =>
      subst hn
      match e with
      | [] => exact ⟨some [], fun fuel _ => by cases fuel <;> rfl⟩
      | c :: s =>
          cases hm : Lexer.firstMatch rules (c :: s) with
          | none =>
              refine ⟨none, fun fuel hfuel => ?_⟩
              obtain ⟨fuel, rfl⟩ := Nat.exists_eq_add_one_of_ne_zero (Nat.ne_zero_of_lt hfuel)
              rw [makeToken, hm]
          | some m =>
              obtain ⟨type, len⟩ := m
              have hpos := rules_pos hm
              have hdrop : ((c :: s).drop len).length < (c :: s).length := by
                rw [List.length_drop, List.length_cons]
                omega
              obtain ⟨ts, hts⟩ := ih _ hdrop ((c :: s).drop len) rfl
              refine ⟨ts.map fun ts => newToken type ((c :: s).take len) ++ ts,
                fun fuel hfuel => ?_⟩
              obtain ⟨fuel, rfl⟩ := Nat.exists_eq_add_one_of_ne_zero (Nat.ne_zero_of_lt hfuel)
              rw [makeToken, hm]
              simp only
              rw [hts fuel (by rw [List.length_cons] at hdrop hfuel; omega)]
              rfl

/-- The tokens of an expression, with its unary operators; there are none where no rule
matches. -/
def tokenize (e : List Char) : Option (List Token) :=
  match makeToken e.length e with
  | .ok ts => ts.map (matchUnaryTokens none)
  | .error _ => none

/-- **`expr` evaluates the reading of the tokens.** -/
theorem expr_eq (S : Semantics V) (e : List Char) : expr S e =
    (tokenize e).elim (.ok none) fun ts => evalReading S (descend kind ts) := by
  obtain ⟨ts, hts⟩ := makeToken_total e
  rw [expr, tokenize, hts _ le_rfl, ok_bind]
  cases ts with
  | none => rfl
  | some ts =>
      have h := eval_eq (S := S) (reads_descend kind (matchUnaryTokens none ts)) at_zero
        (Nat.lt_succ_self _)
      rw [Int.zero_add] at h
      exact h

/-- **`syntax_check` looks for gaps in the reading of the tokens.** -/
theorem syntaxCheck_eq (e : List Char) : syntaxCheck e =
    .ok ((tokenize e).any fun ts => decide (descend kind ts).Complete) := by
  obtain ⟨ts, hts⟩ := makeToken_total e
  rw [syntaxCheck, tokenize, hts _ le_rfl, ok_bind]
  cases ts with
  | none => rfl
  | some ts =>
      have h := syntaxCheckImpl_eq (reads_descend kind (matchUnaryTokens none ts)) at_zero
        (Nat.lt_succ_self _)
      rw [Int.zero_add] at h
      exact h

/-! ## Machines of zeros -/

/-- A machine whose registers and memory are all zero. -/
def zeroNpc : Npc where
  exuPc := 0
  reg _ := 0
  csr _ := 0
  mem _ := 0
  wideShift _ _ _ := 0

/-- A NEMU of zeros with memory from `0x80000000` on, and no devices. -/
def zeroNemu : Nemu where
  cpu := { gpr _ := 0, pc := 0, csr _ := 0, privLevel := 3, mem _ := 0 }
  rve := false
  rtCheck := true
  mbase := 0x80000000
  msize := 0x8000000
  maps := none
  inDifftestTracesim := false
  wideShift _ _ _ := 0

end Sdb

end Bailuwan
