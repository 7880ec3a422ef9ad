/-
# Reading expressions by their dominant operators

A reader that divides a list of tokens at the loosest operator outside of parentheses, the
last one where there are several, and goes on with the parts.  The library is over any
tokens with a `kind`.

* `descend` is the reading of a list of tokens; it has a place for the tokens to the left
  of a unary operator, which the reader drops (`un`), and for a part that it cannot read
  (`nothing`).
* `Derives` is the grammar of expressions without precedences, and `derives_iff` says which
  readings are derivations: those that drop nothing but unary operators.
* `Canonical` is the grammar with precedences and left associativity; it is what the reader
  inverts (`Canonical.reads`), and `reads_chain` is what it does to stacked unary operators.
* `scan` follows where in an expression an operand is expected.
-/
import Mathlib.Data.List.Basic
import Mathlib.Order.WithBot
import Mathlib.Order.Nat

namespace OperatorReading

/-- What a token is to the reader; a binary operator has a precedence. -/
inductive Kind
  | operand
  | lpar
  | rpar
  | unary
  | binary (prec : ℕ)
  deriving DecidableEq, Repr

namespace Kind

/-- Unary operators bind tighter than all binary ones. -/
def prec : Kind → WithTop ℕ
  | binary p => WithTop.some p
  | _ => ⊤

/-- The token is an operator. -/
def isOp : Kind → Bool
  | unary | binary _ => true
  | _ => false

/-- What a token adds to the depth of parentheses. -/
def shift : Kind → ℤ
  | lpar => 1
  | rpar => -1
  | _ => 0

@[simp] theorem shift_operand : shift operand = 0 := rfl
@[simp] theorem shift_lpar : shift lpar = 1 := rfl
@[simp] theorem shift_rpar : shift rpar = -1 := rfl
@[simp] theorem shift_unary : shift unary = 0 := rfl
@[simp] theorem shift_binary (p : ℕ) : shift (binary p) = 0 := rfl
@[simp] theorem prec_unary : prec unary = ⊤ := rfl
@[simp] theorem prec_binary (p : ℕ) : prec (binary p) = WithTop.some p := rfl

/-- Binary operators bind by their precedence. -/
theorem binary_le_iff {p q : ℕ} : (binary p).prec ≤ (binary q).prec ↔ p ≤ q := WithTop.coe_le_coe

/-- A smaller precedence binds less tightly. -/
theorem binary_lt_iff {p q : ℕ} : (binary p).prec < (binary q).prec ↔ p < q := WithTop.coe_lt_coe

/-- Operators do not change the depth. -/
theorem shift_of_isOp {k : Kind} (h : k.isOp = true) : k.shift = 0 := by
  cases k <;> simp_all [isOp]

/-- Only unary operators are tightest. -/
theorem eq_unary_of_top {k : Kind} (h : k.isOp = true) (ht : ⊤ ≤ k.prec) : k = unary := by
  cases k with
  | unary => rfl
  | binary p => exact absurd (top_le_iff.mp ht) (WithTop.coe_ne_top)
  | operand => exact absurd h (by decide)
  | lpar => exact absurd h (by decide)
  | rpar => exact absurd h (by decide)

end Kind

variable {α : Type*} (kind : α → Kind)

/-! ## Depth -/

/-- The parentheses opened and not closed in a list, with a sign. -/
def level : List α → ℤ
  | [] => 0
  | t :: l => (kind t).shift + level l

@[simp] theorem level_nil : level kind [] = 0 := rfl

@[simp] theorem level_cons (t : α) (l : List α) :
    level kind (t :: l) = (kind t).shift + level kind l := rfl

/-- The levels of two stretches add up. -/
@[simp] theorem level_append (a b : List α) :
    level kind (a ++ b) = level kind a + level kind b := by
  induction a with
  | nil => simp
  | cons t a ih => simp [ih, Int.add_assoc]

/-- The operator `t` is outside of parentheses at depth `d`. -/
def outside (d : ℤ) (t : α) : Bool := decide (d ≤ 0) && (kind t).isOp

/-- Every operator outside of parentheses satisfies `P`. -/
def AllOutside (P : Kind → Prop) : ℤ → List α → Prop
  | _, [] => True
  | d, t :: l => (outside kind d t = true → P (kind t)) ∧ AllOutside P (d + (kind t).shift) l

variable {kind} {P Q : Kind → Prop} {d : ℤ} {l a b : List α} {op : α}

/-- What holds of the operators outside holds in a weaker form too. -/
theorem AllOutside.mono (h : AllOutside kind P d l)
    (hPQ : ∀ k : Kind, k.isOp = true → P k → Q k) : AllOutside kind Q d l := by
  induction l generalizing d with
  | nil => trivial
  | cons t l ih =>
      obtain ⟨ht, hl⟩ := h
      exact ⟨fun hout => hPQ _ (Bool.and_eq_true_iff.mp hout).2 (ht hout), ih hl⟩

/-- What holds of the operators outside holds in both parts. -/
theorem allOutside_append :
    AllOutside kind P d (a ++ b) ↔
      AllOutside kind P d a ∧ AllOutside kind P (d + level kind a) b := by
  induction a generalizing d with
  | nil => simp [AllOutside]
  | cons t a ih => simp [AllOutside, ih, and_assoc, Int.add_assoc]

/-! ## The dominant operator -/

variable (kind)

/-- The last of the loosest operators outside of parentheses, with what is to its left and
to its right. -/
def split : ℤ → List α → Option (List α × α × List α)
  | _, [] => none
  | d, t :: l =>
      match split (d + (kind t).shift) l with
      | some (left, op, right) =>
          if outside kind d t && decide ((kind t).prec < (kind op).prec) then some ([], t, l)
          else some (t :: left, op, right)
      | none => if outside kind d t then some ([], t, l) else none

/-- The operator `op` between `a` and `b` is the dominant one. -/
structure Dominates (d : ℤ) (a : List α) (op : α) (b : List α) : Prop where
  outside : outside kind (d + level kind a) op = true
  left : AllOutside kind (fun k => (kind op).prec ≤ k.prec) d a
  right : AllOutside kind (fun k => (kind op).prec < k.prec) (d + level kind a) b

variable {kind}

/-- What dominates is an operator. -/
theorem Dominates.isOp (h : Dominates kind d a op b) : (kind op).isOp = true :=
  (Bool.and_eq_true_iff.mp h.outside).2

/-- What dominates is outside all parentheses. -/
theorem Dominates.level_le (h : Dominates kind d a op b) : d + level kind a ≤ 0 := by
  have hle := (Bool.and_eq_true_iff.mp h.outside).1
  simpa using hle

/-- Where nothing is split later, the first operator is taken. -/
theorem split_cons_of_none {t : α} (h : split kind (d + (kind t).shift) l = none) :
    split kind d (t :: l) = if outside kind d t then some ([], t, l) else none := by
  rw [split, h]

/-- An operator is taken before a later one if it binds less tightly. -/
theorem split_cons_of_some {t o : α} {x y : List α}
    (h : split kind (d + (kind t).shift) l = some (x, o, y)) : split kind d (t :: l) =
      if outside kind d t && decide ((kind t).prec < (kind o).prec) then some ([], t, l)
      else some (t :: x, o, y) := by
  rw [split, h]

/-- Nothing is split where no operator is outside. -/
theorem split_eq_none_iff : split kind d l = none ↔ AllOutside kind (fun _ => False) d l := by
  induction l generalizing d with
  | nil => simp [split, AllOutside]
  | cons t l ih =>
      rw [AllOutside, ← ih]
      cases hs : split kind (d + (kind t).shift) l with
      | none => simp [split_cons_of_none hs]
      | some p =>
          obtain ⟨x, o, y⟩ := p
          rw [split_cons_of_some hs]
          split <;> simp

/-- An operator outside is no parenthesis. -/
theorem shift_of_outside {t : α} (h : outside kind d t = true) : (kind t).shift = 0 :=
  Kind.shift_of_isOp (Bool.and_eq_true_iff.mp h).2

/-- The depth behind the first token. -/
theorem add_level_cons (k : α → Kind) (d : ℤ) (a : List α) (t : α) :
    d + level k (t :: a) = d + (k t).shift + level k a := by
  rw [level_cons, Int.add_assoc]

/-- An operator in front dominates if it is looser than the one that dominates behind it. -/
theorem dominates_of_looser {t : α} (h : Dominates kind d a op b) (hout : outside kind d t = true)
    (hprec : (kind t).prec < (kind op).prec) : Dominates kind d [] t (a ++ op :: b) := by
  refine ⟨by simpa using hout, trivial, ?_⟩
  rw [level_nil, Int.add_zero, allOutside_append]
  refine ⟨h.left.mono fun k _ hk => hprec.trans_le hk, fun _ => hprec, ?_⟩
  rw [Kind.shift_of_isOp h.isOp, Int.add_zero]
  exact h.right.mono fun k _ hk => hprec.trans hk

/-- Otherwise the one behind it does. -/
theorem dominates_cons {t : α} (h : Dominates kind (d + (kind t).shift) a op b)
    (ht : outside kind d t = true → (kind op).prec ≤ (kind t).prec) :
    Dominates kind d (t :: a) op b := by
  have hlevel := add_level_cons kind d a t
  exact ⟨hlevel ▸ h.outside, ⟨ht, h.left⟩, hlevel ▸ h.right⟩

/-- **What is split off is the dominant operator.** -/
theorem dominates_of_split (h : split kind d l = some (a, op, b)) :
    l = a ++ op :: b ∧ Dominates kind d a op b := by
  induction l generalizing d a op b with
  | nil => exact absurd h (by simp [split])
  | cons t l ih =>
      cases hs : split kind (d + (kind t).shift) l with
      | none =>
          rw [split_cons_of_none hs] at h
          by_cases hout : outside kind d t = true
          · rw [if_pos hout] at h
            cases h
            have hnone := split_eq_none_iff.mp hs
            rw [shift_of_outside hout] at hnone
            exact ⟨rfl, by simpa using hout, trivial,
              by simpa using hnone.mono fun _ _ => False.elim⟩
          · rw [if_neg hout] at h
            exact absurd h (by simp)
      | some p =>
          obtain ⟨x, o, y⟩ := p
          obtain ⟨hl, ho⟩ := ih hs
          rw [split_cons_of_some hs] at h
          by_cases hlt : (outside kind d t && decide ((kind t).prec < (kind o).prec)) = true
          · rw [if_pos hlt] at h
            cases h
            obtain ⟨hout, hprec⟩ := Bool.and_eq_true_iff.mp hlt
            rw [shift_of_outside hout, Int.add_zero] at ho
            exact ⟨rfl, hl ▸ dominates_of_looser ho hout (of_decide_eq_true hprec)⟩
          · rw [if_neg hlt] at h
            cases h
            refine ⟨by rw [hl]; rfl, dominates_cons ho fun hout => ?_⟩
            by_contra hno
            exact hlt (by simp [hout, lt_of_not_ge hno])

/-- **The dominant operator is split off.** -/
theorem split_of_dominates (h : Dominates kind d a op b) :
    split kind d (a ++ op :: b) = some (a, op, b) := by
  induction a generalizing d with
  | nil =>
      have hout : outside kind d op = true := by simpa using h.outside
      have hright : AllOutside kind (fun k => (kind op).prec < k.prec) d b := by
        simpa using h.right
      rw [List.nil_append]
      cases hs : split kind (d + (kind op).shift) b with
      | none => rw [split_cons_of_none hs, if_pos hout]
      | some p =>
          obtain ⟨x, o, y⟩ := p
          obtain ⟨hb, ho⟩ := dominates_of_split hs
          rw [shift_of_outside hout, Int.add_zero] at ho
          rw [hb, allOutside_append] at hright
          have hprec := hright.2.1 ho.outside
          rw [split_cons_of_some hs, if_pos (by simp [hout, hprec])]
  | cons t a ih =>
      have hlevel := add_level_cons kind d a t
      have hs := ih ⟨hlevel ▸ h.outside, h.left.2, hlevel ▸ h.right⟩
      rw [List.cons_append, split_cons_of_some hs, if_neg]
      intro hlt
      obtain ⟨hout, hprec⟩ := Bool.and_eq_true_iff.mp hlt
      exact absurd (of_decide_eq_true hprec) (not_lt_of_ge (h.left.1 hout))

/-! ## Matching parentheses -/

variable (kind)

/-- Starting at depth `d`, the parentheses are closed at the end, and none is closed that
has not been opened. -/
def closes : ℕ → List α → Bool
  | d, [] => decide (d = 0)
  | d, t :: l =>
      if kind t = .lpar then closes (d + 1) l
      else if kind t = .rpar then decide (d ≠ 0) && closes (d - 1) l
      else closes d l

/-- What a pair of parentheses that match each other encloses, if the list is one. -/
def enclosed : List α → Option (List α)
  | [] => none
  | t :: l =>
      match l.getLast? with
      | none => none
      | some e =>
          if kind t = .lpar ∧ kind e = .rpar ∧ closes kind 0 l.dropLast = true then
            some l.dropLast
          else none

variable {kind}

/-- An opening parenthesis is to be closed. -/
theorem closes_lpar {n : ℕ} {t : α} (h : kind t = .lpar) :
    closes kind n (t :: l) = closes kind (n + 1) l := by
  rw [closes, if_pos h]

/-- A closing parenthesis closes one. -/
theorem closes_rpar {n : ℕ} {t : α} (h : kind t = .rpar) :
    closes kind n (t :: l) = (decide (n ≠ 0) && closes kind (n - 1) l) := by
  rw [closes, if_neg (by rw [h]; decide), if_pos h]

/-- Other tokens neither open nor close anything. -/
theorem closes_other {n : ℕ} {t : α} (hl : kind t ≠ .lpar) (hr : kind t ≠ .rpar) :
    closes kind n (t :: l) = closes kind n l := by
  rw [closes, if_neg hl, if_neg hr]

/-- What comes before a place in a list that closes does not close more than it opens. -/
theorem level_nonneg_of_closes {n : ℕ} (h : closes kind n (a ++ b) = true) :
    0 ≤ n + level kind a := by
  induction a generalizing n with
  | nil => simp
  | cons t a ih =>
      rw [List.cons_append] at h
      rw [level_cons]
      by_cases hl : kind t = .lpar
      · rw [closes_lpar hl] at h
        have := ih h
        push_cast at this
        rw [hl, Kind.shift_lpar]
        omega
      · by_cases hr : kind t = .rpar
        · rw [closes_rpar hr, Bool.and_eq_true, decide_eq_true_eq] at h
          have := ih h.2
          have hn := h.1
          rw [hr, Kind.shift_rpar]
          omega
        · rw [closes_other hl hr] at h
          have hshift : (kind t).shift = 0 := by
            cases hk : kind t <;> simp_all
          have := ih h
          omega

/-- Deeper than what a list closes, none of its operators is outside of parentheses. -/
theorem allOutside_of_closes {n : ℕ} (h : closes kind n l = true) (hd : n < d)
    (P : Kind → Prop) : AllOutside kind P d l := by
  induction l generalizing n d with
  | nil => trivial
  | cons t l ih =>
      refine ⟨fun hout => ?_, ?_⟩
      · have := of_decide_eq_true (Bool.and_eq_true_iff.mp hout).1
        omega
      · by_cases hl : kind t = .lpar
        · rw [closes_lpar hl] at h
          exact ih h (by rw [hl, Kind.shift_lpar]; push_cast; omega)
        · by_cases hr : kind t = .rpar
          · rw [closes_rpar hr, Bool.and_eq_true, decide_eq_true_eq] at h
            exact ih h.2 (by rw [hr, Kind.shift_rpar]; omega)
          · rw [closes_other hl hr] at h
            have hshift : (kind t).shift = 0 := by
              cases hk : kind t <;> simp_all
            exact ih h (by omega)

/-- What is enclosed stands between two parentheses that belong together. -/
theorem enclosed_eq_some_iff {m : List α} : enclosed kind l = some m ↔
    ∃ lp rp, l = lp :: (m ++ [rp]) ∧ kind lp = .lpar ∧ kind rp = .rpar ∧
      closes kind 0 m = true := by
  cases l with
  | nil => simp [enclosed]
  | cons t l =>
      rw [enclosed]
      rcases List.eq_nil_or_concat l with rfl | ⟨l', e, rfl⟩
      · simp
      · rw [List.concat_eq_append]
        simp only [List.getLast?_append, List.getLast?_singleton, Option.some_or,
          List.dropLast_concat]
        constructor
        · intro h
          by_cases hc : kind t = .lpar ∧ kind e = .rpar ∧ closes kind 0 l' = true
          · rw [if_pos hc] at h
            cases h
            exact ⟨t, e, rfl, hc⟩
          · rw [if_neg hc] at h
            exact absurd h (by simp)
        · rintro ⟨lp, rp, heq, hc⟩
          obtain ⟨rfl, htail⟩ := List.cons.inj heq
          obtain ⟨rfl, hrp⟩ := List.append_inj' htail rfl
          obtain rfl := List.singleton_inj.mp hrp
          rw [if_pos hc]

/-- A list with an operator outside of its parentheses is not a pair of parentheses. -/
theorem enclosed_eq_none_of_outside (h : outside kind (level kind a) op = true) :
    enclosed kind (a ++ op :: b) = none := by
  cases hm : enclosed kind (a ++ op :: b) with
  | none => rfl
  | some m =>
      obtain ⟨lp, rp, heq, hlp, hrp, hcloses⟩ := enclosed_eq_some_iff.mp hm
      obtain ⟨hle, hop⟩ := Bool.and_eq_true_iff.mp h
      have hle : level kind a ≤ 0 := of_decide_eq_true hle
      cases a with
      | nil =>
          obtain ⟨rfl, -⟩ := List.cons.inj heq
          rw [hlp] at hop
          exact absurd hop (by decide)
      | cons t a =>
          obtain ⟨rfl, htail⟩ := List.cons.inj heq
          -- the operator is not the last token, so it is enclosed
          rcases List.eq_nil_or_concat b with rfl | ⟨b', e, rfl⟩
          · obtain ⟨-, hlast⟩ := List.append_inj' htail rfl
            obtain rfl := List.singleton_inj.mp hlast
            rw [hrp] at hop
            exact absurd hop (by decide)
          · have hsnoc : (a ++ op :: b') ++ [e] = m ++ [rp] := by
              rw [← htail, List.concat_eq_append]
              simp
            obtain ⟨rfl, -⟩ := List.append_inj' hsnoc rfl
            have := level_nonneg_of_closes hcloses
            rw [level_cons, hlp, Kind.shift_lpar] at hle
            push_cast at this
            omega

/-! ## Readings -/

/-- How a list of tokens is read; `un dropped op r` has the tokens to the left of a unary
operator, which are not read, and `nothing` is an empty part or one of several tokens
without an operator. -/
inductive Reading (α : Type*)
  | nothing
  | leaf (t : α)
  | paren (r : Reading α)
  | un (dropped : List α) (op : α) (r : Reading α)
  | bin (l : Reading α) (op : α) (r : Reading α)

/-- What is enclosed is shorter. -/
theorem length_enclosed {m : List α} (h : enclosed kind l = some m) : m.length < l.length := by
  obtain ⟨lp, rp, rfl, -⟩ := enclosed_eq_some_iff.mp h
  rw [List.length_cons, List.length_append]
  omega

/-- The sides of an operator are shorter. -/
theorem length_split (h : split kind d l = some (a, op, b)) :
    a.length < l.length ∧ b.length < l.length := by
  rw [(dominates_of_split h).1, List.length_append, List.length_cons]
  omega

variable (kind)

/-- **The reading of a list of tokens**: a single token whatever it is, the inside of matching
parentheses, or the parts around the dominant operator. -/
def descend (l : List α) : Reading α :=
  match l with
  | [] => .nothing
  | [t] => .leaf t
  | t :: u :: rest =>
      match _hi : enclosed kind (t :: u :: rest) with
      | some m => .paren (descend m)
      | none =>
          match _hs : split kind 0 (t :: u :: rest) with
          | none => .nothing
          | some (left, op, right) =>
              if kind op = .unary then .un left op (descend right)
              else .bin (descend left) op (descend right)
termination_by l.length
decreasing_by
  · exact length_enclosed _hi
  · exact (length_split _hs).2
  · exact (length_split _hs).1
  · exact (length_split _hs).2

variable {kind}

@[simp] theorem descend_nil : descend kind ([] : List α) = .nothing := by rw [descend]

@[simp] theorem descend_singleton (t : α) : descend kind [t] = .leaf t := by rw [descend]

/-- What is enclosed has its parentheses. -/
theorem two_le_length_of_enclosed {m : List α} (h : enclosed kind l = some m) : 2 ≤ l.length := by
  obtain ⟨lp, rp, rfl, -⟩ := enclosed_eq_some_iff.mp h
  simp

/-- What is enclosed is read without its parentheses. -/
theorem descend_of_enclosed {m : List α} (h : enclosed kind l = some m) :
    descend kind l = .paren (descend kind m) := by
  match l, two_le_length_of_enclosed h with
  | t :: u :: rest, _ =>
      rw [descend]
      split
      · rename_i m' hm'
        rw [h] at hm'
        cases hm'
        rfl
      · rename_i hnone
        rw [h] at hnone
        cases hnone

/-- What cannot be split is not read. -/
theorem descend_of_split_none (hlen : 2 ≤ l.length) (hi : enclosed kind l = none)
    (hs : split kind 0 l = none) : descend kind l = .nothing := by
  match l, hlen with
  | t :: u :: rest, _ =>
      rw [descend]
      split
      · rename_i m hm
        rw [hi] at hm
        cases hm
      · split
        · rfl
        · rename_i left op right hsome
          rw [hs] at hsome
          cases hsome

/-- What can be split is read on both sides. -/
theorem descend_of_split (hlen : 2 ≤ l.length) (hi : enclosed kind l = none)
    (hs : split kind 0 l = some (a, op, b)) : descend kind l =
      if kind op = .unary then .un a op (descend kind b)
      else .bin (descend kind a) op (descend kind b) := by
  match l, hlen with
  | t :: u :: rest, _ =>
      rw [descend]
      split
      · rename_i m hm
        rw [hi] at hm
        cases hm
      · split
        · rename_i hnone
          rw [hs] at hnone
          cases hnone
        · rename_i left o right hsome
          rw [hs] at hsome
          cases hsome
          rfl

/-- The readings of a list, as a relation. -/
inductive Reads (kind : α → Kind) : List α → Reading α → Prop
  | nil : Reads kind [] .nothing
  | leaf (t : α) : Reads kind [t] (.leaf t)
  | paren {l m : List α} {r : Reading α} (hi : enclosed kind l = some m) (h : Reads kind m r) :
      Reads kind l (.paren r)
  | stuck {l : List α} (hlen : 2 ≤ l.length) (hi : enclosed kind l = none)
      (hs : split kind 0 l = none) : Reads kind l .nothing
  | un {l a b : List α} {op : α} {r : Reading α} (hlen : 2 ≤ l.length)
      (hi : enclosed kind l = none) (hs : split kind 0 l = some (a, op, b))
      (ho : kind op = .unary) (h : Reads kind b r) : Reads kind l (.un a op r)
  | bin {l a b : List α} {op : α} {x y : Reading α} (hlen : 2 ≤ l.length)
      (hi : enclosed kind l = none) (hs : split kind 0 l = some (a, op, b))
      (ho : kind op ≠ .unary) (ha : Reads kind a x) (hb : Reads kind b y) :
      Reads kind l (.bin x op y)

/-- A list has one reading. -/
theorem Reads.descend_eq {r : Reading α} (h : Reads kind l r) : descend kind l = r := by
  induction h with
  | nil => exact descend_nil
  | leaf t => exact descend_singleton t
  | paren hi _ ih => rw [descend_of_enclosed hi, ih]
  | stuck hlen hi hs => exact descend_of_split_none hlen hi hs
  | un hlen hi hs ho _ ih => rw [descend_of_split hlen hi hs, if_pos ho, ih]
  | bin hlen hi hs ho _ _ iha ihb => rw [descend_of_split hlen hi hs, if_neg ho, iha, ihb]

/-- Every list is read as it descends. -/
theorem reads_descend (kind : α → Kind) (l : List α) : Reads kind l (descend kind l) := by
  generalize hn : l.length = n
  induction n using Nat.strong_induction_on generalizing l with
  | _ n ih =>
      subst hn
      match l with
      | [] =>
          rw [descend_nil]
          exact .nil
      | [t] =>
          rw [descend_singleton]
          exact .leaf t
      | t :: u :: rest =>
          have hlen : 2 ≤ (t :: u :: rest).length := by simp
          cases hi : enclosed kind (t :: u :: rest) with
          | some m =>
              rw [descend_of_enclosed hi]
              exact .paren hi (ih _ (length_enclosed hi) m rfl)
          | none =>
              cases hs : split kind 0 (t :: u :: rest) with
              | none =>
                  rw [descend_of_split_none hlen hi hs]
                  exact .stuck hlen hi hs
              | some q =>
                  obtain ⟨a, op, b⟩ := q
                  obtain ⟨hla, hlb⟩ := length_split hs
                  rw [descend_of_split hlen hi hs]
                  by_cases ho : kind op = .unary
                  · rw [if_pos ho]
                    exact .un hlen hi hs ho (ih _ hlb b rfl)
                  · rw [if_neg ho]
                    exact .bin hlen hi hs ho (ih _ hla a rfl) (ih _ hlb b rfl)

/-! ## The grammar -/

variable (kind)

/-- `E ::= operand | ( E ) | unop E | E binop E` -/
inductive Derives : List α → Prop
  | operand {t : α} (ht : kind t = .operand) : Derives [t]
  | paren {lp rp : α} {l : List α} (hl : kind lp = .lpar) (hr : kind rp = .rpar)
      (h : Derives l) : Derives (lp :: (l ++ [rp]))
  | un {op : α} {l : List α} (ho : kind op = .unary) (h : Derives l) : Derives (op :: l)
  | bin {op : α} {p : ℕ} {a b : List α} (ho : kind op = .binary p) (ha : Derives a)
      (hb : Derives b) : Derives (a ++ op :: b)

variable {kind}

namespace Derives

/-- An expression is not empty. -/
theorem ne_nil (h : Derives kind l) : l ≠ [] := by
  cases h <;> simp

/-- The parentheses of an expression are balanced. -/
theorem level_eq (h : Derives kind l) : level kind l = 0 := by
  induction h with
  | operand ht => simp [ht]
  | paren hl hr _ ih => simp [hl, hr, ih]
  | un ho _ ih => simp [ho, ih]
  | bin ho _ _ iha ihb => simp [ho, iha, ihb]

/-- A derived list closes what it opens. -/
theorem closes_append (h : Derives kind l) (n : ℕ) (r : List α) :
    closes kind n (l ++ r) = closes kind n r := by
  induction h generalizing n r with
  | operand ht => exact closes_other (by rw [ht]; decide) (by rw [ht]; decide)
  | paren hl hr _ ih =>
      rw [List.cons_append, List.append_assoc, closes_lpar hl, ih, List.singleton_append,
        closes_rpar hr]
      simp
  | un ho _ ih =>
      rw [List.cons_append, closes_other (by rw [ho]; decide) (by rw [ho]; decide), ih]
  | bin ho _ _ iha ihb =>
      rw [List.append_assoc, iha, List.cons_append,
        closes_other (by simp [ho]) (by simp [ho]), ihb]

/-- No parenthesis of an expression is closed before it is opened. -/
theorem closes (h : Derives kind l) : closes kind 0 l = true := by
  have := h.closes_append 0 []
  rw [List.append_nil] at this
  rw [this]
  rfl

/-- A derived list has no operator outside of parentheses when it stands in parentheses. -/
theorem allOutside (h : Derives kind l) (hd : 0 < d) (P : Kind → Prop) :
    AllOutside kind P d l :=
  allOutside_of_closes h.closes hd P

/-- A cut at a token of another kind than the first one is behind the first one. -/
theorem exists_tail_of_cut (kind : α → Kind) {t : α} (h : t :: l = a ++ op :: b)
    (hne : kind t ≠ kind op) : ∃ a', a = t :: a' ∧ l = a' ++ op :: b := by
  obtain ⟨rfl, heq⟩ | ⟨a', rfl, heq⟩ := List.cons_eq_append_iff.mp h
  · obtain ⟨rfl, -⟩ := List.cons.inj heq
    exact absurd rfl hne
  · exact ⟨a', rfl, heq⟩

/-- A derived list may be divided at every binary operator outside of parentheses. -/
theorem split_bin (h : Derives kind l) {p : ℕ} (hl : l = a ++ op :: b) (ho : kind op = .binary p)
    (hle : level kind a ≤ 0) : Derives kind a ∧ Derives kind b := by
  induction h generalizing a b with
  | operand ht =>
      obtain ⟨a', -, heq⟩ := exists_tail_of_cut kind hl (by rw [ht, ho]; simp)
      simp at heq
  | @paren lp rp l hl' hr hder ih =>
      obtain ⟨a', rfl, heq⟩ := exists_tail_of_cut kind hl (by rw [hl', ho]; simp)
      -- the operator is inside of the parentheses
      rw [level_cons, hl', Kind.shift_lpar] at hle
      rcases List.eq_nil_or_concat b with rfl | ⟨b', e, rfl⟩
      · obtain ⟨-, hlast⟩ := List.append_inj' heq rfl
        obtain rfl := List.singleton_inj.mp hlast
        rw [hr] at ho
        exact absurd ho (by simp)
      · have hsnoc : l ++ [rp] = (a' ++ op :: b') ++ [e] := by
          rw [heq, List.concat_eq_append]
          simp
        obtain ⟨rfl, -⟩ := List.append_inj' hsnoc rfl
        have := level_nonneg_of_closes hder.closes
        push_cast at this
        omega
  | @un u l hu hder ih =>
      obtain ⟨a', rfl, heq⟩ := exists_tail_of_cut kind hl (by rw [hu, ho]; simp)
      rw [level_cons, hu, Kind.shift_unary, Int.zero_add] at hle
      obtain ⟨ha', hb⟩ := ih heq hle
      exact ⟨.un hu ha', hb⟩
  | @bin o q x y hop hx hy ihx ihy =>
      rcases List.append_eq_append_iff.mp hl with ⟨c, rfl, hcat⟩ | ⟨c, rfl, hcat⟩
      · obtain ⟨rfl, heq⟩ | ⟨c', rfl, heq⟩ := List.cons_eq_append_iff.mp hcat
        · -- at the operator of the derivation
          obtain ⟨rfl, rfl⟩ := List.cons.inj heq
          rw [List.append_nil]
          exact ⟨hx, hy⟩
        · rw [level_append, level_cons, hx.level_eq, hop, Kind.shift_binary] at hle
          obtain ⟨hc, hb⟩ := ihy heq (by omega)
          exact ⟨.bin hop hx hc, hb⟩
      · obtain ⟨rfl, heq⟩ | ⟨c', rfl, heq⟩ := List.cons_eq_append_iff.mp hcat
        · obtain ⟨rfl, rfl⟩ := List.cons.inj heq
          rw [List.append_nil] at hx
          exact ⟨hx, hy⟩
        · obtain ⟨ha, hc⟩ := ihx rfl hle
          subst heq
          exact ⟨ha, .bin hop hc hy⟩

/-- A derived list without a binary operator outside of parentheses is a chain of unary
operators before something without operators. -/
theorem split_un (h : Derives kind l) (hs : split kind 0 l = some (a, op, b))
    (hu : AllOutside kind (fun k => k = .unary) 0 l) :
    (∀ t ∈ a, kind t = .unary) ∧ Derives kind b := by
  induction h generalizing a b with
  | operand ht =>
      simp [split, outside, ht, Kind.isOp] at hs
  | @paren lp rp l hl hr hder ih =>
      refine absurd (split_eq_none_iff.mpr ?_) (by rw [hs]; simp)
      refine ⟨by simp [outside, hl, Kind.isOp], allOutside_append.mpr
        ⟨hder.allOutside (by rw [hl, Kind.shift_lpar]; omega) _, ?_, trivial⟩⟩
      simp [outside, hr, Kind.isOp]
  | @un u l hu' hder ih =>
      rw [AllOutside, hu', Kind.shift_unary, Int.add_zero] at hu
      cases hrest : split kind 0 l with
      | none =>
          rw [split_cons_of_none (by rw [hu', Kind.shift_unary, Int.add_zero]; exact hrest)] at hs
          rw [if_pos (by simp [outside, hu', Kind.isOp])] at hs
          cases hs
          exact ⟨by simp, hder⟩
      | some q =>
          obtain ⟨x, o, y⟩ := q
          rw [split_cons_of_some (by rw [hu', Kind.shift_unary, Int.add_zero]; exact hrest)] at hs
          rw [if_neg (by simp [hu'])] at hs
          cases hs
          obtain ⟨hx, hy⟩ := ih hrest hu.2
          exact ⟨List.forall_mem_cons.mpr ⟨hu', hx⟩, hy⟩
  | @bin o p x y hop hx hy _ _ =>
      have hout := (allOutside_append.mp hu).2.1 (by simp [outside, hx.level_eq, hop, Kind.isOp])
      rw [hop] at hout
      cases hout

/-- What stands in derived parentheses is derived. -/
theorem enclosed {m : List α} (h : Derives kind l) (hi : enclosed kind l = some m) :
    Derives kind m := by
  obtain ⟨lp, rp, heq, hlp, hrp, -⟩ := enclosed_eq_some_iff.mp hi
  cases h with
  | operand ht =>
      rw [List.cons.injEq] at heq
      simp at heq
  | paren hl hr hder =>
      obtain ⟨-, htail⟩ := List.cons.inj heq
      obtain ⟨rfl, -⟩ := List.append_inj' htail rfl
      exact hder
  | un ho _ =>
      obtain ⟨rfl, -⟩ := List.cons.inj heq
      rw [hlp] at ho
      cases ho
  | bin ho ha _ =>
      rw [enclosed_eq_none_of_outside (by simp [outside, ha.level_eq, ho, Kind.isOp])] at hi
      cases hi

end Derives

/-! ## Which readings are derivations -/

namespace Reading

/-- Every part is read. -/
def Complete : Reading α → Prop
  | nothing => False
  | leaf _ => True
  | paren r => r.Complete
  | un _ _ r => r.Complete
  | bin l _ r => l.Complete ∧ r.Complete

/-- The number of tokens that are read. -/
def size : Reading α → ℕ
  | nothing => 0
  | leaf _ => 1
  | paren r => r.size + 2
  | un _ _ r => r.size + 1
  | bin l _ r => l.size + 1 + r.size

/-- Nothing stands to the left of a unary operator at which the list is divided. -/
def DropsNothing : Reading α → Prop
  | nothing => True
  | leaf _ => True
  | paren r => r.DropsNothing
  | un dropped _ r => dropped = [] ∧ r.DropsNothing
  | bin l _ r => l.DropsNothing ∧ r.DropsNothing

/-- The tokens that are read as operands. -/
def leaves : Reading α → List α
  | nothing => []
  | leaf t => [t]
  | paren r => r.leaves
  | un _ _ r => r.leaves
  | bin l _ r => l.leaves ++ r.leaves

variable (kind)

/-- The tokens that are dropped are unary operators. -/
def DropsUnary : Reading α → Prop
  | nothing => True
  | leaf _ => True
  | paren r => r.DropsUnary
  | un dropped _ r => (∀ t ∈ dropped, kind t = .unary) ∧ r.DropsUnary
  | bin l _ r => l.DropsUnary ∧ r.DropsUnary

variable {kind} {r : Reading α}

/-- A reading that drops nothing drops unary operators only. -/
theorem DropsNothing.dropsUnary (h : r.DropsNothing) : r.DropsUnary kind := by
  induction r with
  | nothing => trivial
  | leaf t => trivial
  | paren r ih => exact ih h
  | un dropped op r ih =>
      obtain ⟨rfl, hr⟩ := h
      exact ⟨by simp, ih hr⟩
  | bin l op r ihl ihr => exact ⟨ihl h.1, ihr h.2⟩

end Reading

/-- A reading is not larger than its list. -/
theorem Reads.size_le {r : Reading α} (h : Reads kind l r) : r.size ≤ l.length := by
  induction h with
  | nil => rfl
  | leaf t => rfl
  | @paren l m r hi _ ih =>
      obtain ⟨lp, rp, rfl, -⟩ := enclosed_eq_some_iff.mp hi
      simp only [Reading.size, List.length_cons, List.length_append, List.length_nil]
      omega
  | stuck => exact Nat.zero_le _
  | @un l a b op r _ _ hs _ _ ih =>
      obtain ⟨rfl, -⟩ := dominates_of_split hs
      simp only [Reading.size, List.length_append, List.length_cons]
      omega
  | @bin l a b op x y _ _ hs _ _ _ iha ihb =>
      obtain ⟨rfl, -⟩ := dominates_of_split hs
      simp only [Reading.size, List.length_append, List.length_cons]
      omega

/-- **All tokens are read** if and only if nothing is dropped. -/
theorem Reads.size_eq_iff {r : Reading α} (h : Reads kind l r) (hwhole : r.Complete) :
    r.size = l.length ↔ r.DropsNothing := by
  induction h with
  | nil => exact hwhole.elim
  | stuck => exact hwhole.elim
  | leaf t => simp [Reading.size, Reading.DropsNothing]
  | @paren l m r hi _ ih =>
      obtain ⟨lp, rp, rfl, -⟩ := enclosed_eq_some_iff.mp hi
      rw [Reading.DropsNothing, ← ih hwhole]
      simp only [Reading.size, List.length_cons, List.length_append, List.length_nil]
      omega
  | @un l a b op r _ _ hs _ hr ih =>
      obtain ⟨rfl, -⟩ := dominates_of_split hs
      have hle := hr.size_le
      rw [Reading.DropsNothing, ← ih hwhole, ← List.length_eq_zero_iff]
      simp only [Reading.size, List.length_append, List.length_cons]
      omega
  | @bin l a b op x y _ _ hs _ hx hy iha ihb =>
      obtain ⟨rfl, -⟩ := dominates_of_split hs
      have hlex := hx.size_le
      have hley := hy.size_le
      rw [Reading.DropsNothing, ← iha hwhole.1, ← ihb hwhole.2]
      simp only [Reading.size, List.length_append, List.length_cons]
      omega

/-- A chain of unary operators before a derived list. -/
theorem Derives.chain (h : Derives kind l) (ha : ∀ t ∈ a, kind t = .unary) :
    Derives kind (a ++ l) := by
  induction a with
  | nil => exact h
  | cons t a ih =>
      rw [List.forall_mem_cons] at ha
      exact .un ha.1 (ih ha.2)

/-- A dominating operator that is not unary has a precedence. -/
theorem exists_prec {op : α} (h : Dominates kind d a op b) (ho : kind op ≠ .unary) :
    ∃ p, kind op = .binary p := by
  have hop := h.isOp
  cases hk : kind op with
  | binary p => exact ⟨p, rfl⟩
  | unary => exact absurd hk ho
  | operand => rw [hk] at hop; exact absurd hop (by decide)
  | lpar => rw [hk] at hop; exact absurd hop (by decide)
  | rpar => rw [hk] at hop; exact absurd hop (by decide)

/-- Without an operator outside of parentheses and without parentheses around it, only an
operand is derived. -/
theorem length_le_one_of_derives (h : Derives kind l) (hi : enclosed kind l = none)
    (hs : split kind 0 l = none) : l.length ≤ 1 := by
  rw [split_eq_none_iff] at hs
  cases h with
  | operand => simp
  | paren hl hr hder =>
      rw [enclosed_eq_some_iff.mpr ⟨_, _, rfl, hl, hr, hder.closes⟩] at hi
      cases hi
  | un ho _ => exact (hs.1 (by simp [outside, ho, Kind.isOp])).elim
  | bin ho ha _ =>
      refine ((allOutside_append.mp hs).2.1 ?_).elim
      simp [outside, ha.level_eq, ho, Kind.isOp]

/-- Where a unary operator is dominant, there are only unary operators. -/
theorem Dominates.allUnary (h : Dominates kind 0 a op b) (ho : kind op = .unary) :
    AllOutside kind (fun k => k = .unary) 0 (a ++ op :: b) := by
  have hleft := h.left
  have hright := h.right
  rw [ho, Kind.prec_unary] at hleft hright
  refine allOutside_append.mpr ⟨hleft.mono fun k hk ht => Kind.eq_unary_of_top hk ht,
    fun _ => ho, ?_⟩
  rw [ho, Kind.shift_unary, Int.add_zero]
  exact hright.mono fun k hk ht => Kind.eq_unary_of_top hk ht.le

/-- **A list that is read, with operands for operands, is derived if and only if its reading
drops nothing but unary operators.** -/
theorem derives_iff {r : Reading α} (h : Reads kind l r) (hwhole : r.Complete)
    (hleaves : ∀ t ∈ r.leaves, kind t = .operand) : Derives kind l ↔ r.DropsUnary kind := by
  induction h with
  | nil => exact hwhole.elim
  | stuck => exact hwhole.elim
  | leaf t => exact ⟨fun _ => trivial, fun _ => .operand (hleaves t (by simp [Reading.leaves]))⟩
  | @paren l m r hi _ ih =>
      refine ⟨fun hder => (ih hwhole hleaves).mp (hder.enclosed hi), fun hdrop => ?_⟩
      obtain ⟨lp, rp, rfl, hlp, hrp, -⟩ := enclosed_eq_some_iff.mp hi
      exact .paren hlp hrp ((ih hwhole hleaves).mpr hdrop)
  | @un l a b op r _ _ hs ho _ ih =>
      obtain ⟨rfl, hdom⟩ := dominates_of_split hs
      constructor
      · intro hder
        obtain ⟨ha, hb⟩ := hder.split_un hs (hdom.allUnary ho)
        exact ⟨ha, (ih hwhole hleaves).mp hb⟩
      · rintro ⟨ha, hb⟩
        exact Derives.chain (.un ho ((ih hwhole hleaves).mpr hb)) ha
  | @bin l a b op x y _ _ hs ho _ _ iha ihb =>
      obtain ⟨rfl, hdom⟩ := dominates_of_split hs
      obtain ⟨p, hp⟩ := exists_prec hdom ho
      have hla : ∀ t ∈ x.leaves, kind t = .operand :=
        fun t ht => hleaves t (List.mem_append_left _ ht)
      have hlb : ∀ t ∈ y.leaves, kind t = .operand :=
        fun t ht => hleaves t (List.mem_append_right _ ht)
      constructor
      · intro hder
        obtain ⟨ha, hb⟩ := hder.split_bin rfl hp (by have := hdom.level_le; omega)
        exact ⟨(iha hwhole.1 hla).mp ha, (ihb hwhole.2 hlb).mp hb⟩
      · rintro ⟨ha, hb⟩
        exact .bin hp ((iha hwhole.1 hla).mpr ha) ((ihb hwhole.2 hlb).mpr hb)

/-- The reading of a derived list has no gaps, and operands for its leaves. -/
theorem Derives.complete {r : Reading α} (hder : Derives kind l) (h : Reads kind l r) :
    r.Complete ∧ ∀ t ∈ r.leaves, kind t = .operand := by
  induction h with
  | nil => exact absurd rfl hder.ne_nil
  | leaf t =>
      refine ⟨trivial, fun u hu => ?_⟩
      obtain rfl := List.mem_singleton.mp hu
      generalize hl : [u] = l at hder
      cases hder with
      | operand ht =>
          obtain rfl := List.singleton_inj.mp hl
          exact ht
      | paren => simp at hl
      | un ho hrest =>
          obtain ⟨-, rfl⟩ := List.cons.inj hl
          exact absurd rfl hrest.ne_nil
      | bin ho ha hb =>
          have hlena := List.length_pos_iff.mpr ha.ne_nil
          have hlenb := List.length_pos_iff.mpr hb.ne_nil
          have hlen := congrArg List.length hl
          simp only [List.length_append, List.length_cons, List.length_nil] at hlen
          omega
  | @paren l m r hi _ ih => exact ih (hder.enclosed hi)
  | @stuck l hlen hi hs =>
      have := length_le_one_of_derives hder hi hs
      omega
  | @un l a b op r _ _ hs ho _ ih =>
      obtain ⟨rfl, hdom⟩ := dominates_of_split hs
      exact ih (hder.split_un hs (hdom.allUnary ho)).2
  | @bin l a b op x y _ _ hs ho _ _ iha ihb =>
      obtain ⟨rfl, hdom⟩ := dominates_of_split hs
      obtain ⟨p, hp⟩ := exists_prec hdom ho
      obtain ⟨ha, hb⟩ := hder.split_bin rfl hp (by have := hdom.level_le; omega)
      obtain ⟨hxw, hxl⟩ := iha ha
      obtain ⟨hyw, hyl⟩ := ihb hb
      refine ⟨⟨hxw, hyw⟩, fun t ht => ?_⟩
      rcases List.mem_append.mp ht with ht | ht
      · exact hxl t ht
      · exact hyl t ht

/-! ## Precedence and associativity -/

variable (kind)

/-- Expressions written with the parentheses that the precedences and left associativity
require, and possibly more, with their readings and their dominant operators; `operand` is
the kind of what has none.  Unary operators are not stacked. -/
inductive Canonical : List α → Reading α → Kind → Prop
  | operand {t : α} (ht : kind t = .operand) : Canonical [t] (.leaf t) .operand
  | paren {lp rp : α} {l : List α} {r : Reading α} {k : Kind} (hl : kind lp = .lpar)
      (hr : kind rp = .rpar) (h : Canonical l r k) :
      Canonical (lp :: (l ++ [rp])) (.paren r) .operand
  | un {op : α} {l : List α} {r : Reading α} (ho : kind op = .unary)
      (h : Canonical l r .operand) : Canonical (op :: l) (.un [] op r) .unary
  | bin {op : α} {p : ℕ} {a b : List α} {x y : Reading α} {j k : Kind}
      (ho : kind op = .binary p) (ha : Canonical a x j) (hb : Canonical b y k)
      (hj : (Kind.binary p).prec ≤ j.prec) (hk : (Kind.binary p).prec < k.prec) :
      Canonical (a ++ op :: b) (.bin x op y) (.binary p)

variable {kind}

namespace Canonical

variable {r : Reading α} {k : Kind}

/-- What is written canonically is an expression. -/
theorem derives (h : Canonical kind l r k) : Derives kind l := by
  induction h with
  | operand ht => exact .operand ht
  | paren hl hr _ ih => exact .paren hl hr ih
  | un ho _ ih => exact .un ho ih
  | bin ho _ _ _ _ iha ihb => exact .bin ho iha ihb

/-- The operators outside of parentheses are no looser than the dominant one. -/
theorem allOutside (h : Canonical kind l r k) :
    AllOutside kind (fun k' => k.isOp = true ∧ k.prec ≤ k'.prec) 0 l := by
  induction h with
  | operand ht => exact ⟨by simp [outside, ht, Kind.isOp], trivial⟩
  | @paren lp rp l r k hl hr hc ih =>
      refine ⟨by simp [outside, hl, Kind.isOp], allOutside_append.mpr
        ⟨hc.derives.allOutside (by rw [hl, Kind.shift_lpar]; omega) _, ?_, trivial⟩⟩
      simp [outside, hr, Kind.isOp]
  | @un op l r ho _ ih =>
      refine ⟨fun _ => ⟨rfl, by rw [ho]⟩, ?_⟩
      rw [ho, Kind.shift_unary, Int.add_zero]
      exact ih.mono fun k' _ hk' => absurd hk'.1 (by decide)
  | @bin op p a b x y j k ho ha _ hj hk iha ihb =>
      refine allOutside_append.mpr ⟨iha.mono fun k' _ hk' => ⟨rfl, hj.trans hk'.2⟩,
        fun _ => ⟨rfl, by rw [ho]⟩, ?_⟩
      rw [ha.derives.level_eq, ho, Kind.shift_binary]
      exact ihb.mono fun k' _ hk' => ⟨rfl, hk.le.trans hk'.2⟩

/-- **The reader inverts the writing of expressions.** -/
theorem reads (h : Canonical kind l r k) : Reads kind l r := by
  induction h with
  | operand => exact .leaf _
  | paren hl hr hc ih =>
      exact .paren (enclosed_eq_some_iff.mpr ⟨_, _, rfl, hl, hr, hc.derives.closes⟩) ih
  | @un op l r ho hc ih =>
      have hdom : Dominates kind 0 [] op l := by
        refine ⟨by simp [outside, ho, Kind.isOp], trivial, ?_⟩
        exact hc.allOutside.mono fun k' _ hk' => absurd hk'.1 (by decide)
      have hlen := List.length_pos_iff.mpr hc.derives.ne_nil
      exact .un (by rw [List.length_cons]; omega)
        (enclosed_eq_none_of_outside (a := []) (by simp [outside, ho, Kind.isOp]))
        (split_of_dominates hdom) ho ih
  | @bin op p a b x y j k ho ha hb hj hk iha ihb =>
      have hlevel := ha.derives.level_eq
      have hdom : Dominates kind 0 a op b := by
        refine ⟨by simp [outside, hlevel, ho, Kind.isOp], ?_, ?_⟩
        · exact ha.allOutside.mono fun k' _ hk' => by
            rw [ho]
            exact hj.trans hk'.2
        · rw [hlevel, ho]
          exact hb.allOutside.mono fun k' _ hk' => hk.trans_le hk'.2
      have hlen := List.length_pos_iff.mpr ha.derives.ne_nil
      exact .bin (by rw [List.length_append, List.length_cons]; omega)
        (enclosed_eq_none_of_outside (by simp [outside, hlevel, ho, Kind.isOp]))
        (split_of_dominates hdom) (by simp [ho]) iha ihb

end Canonical

/-! ## Stacked unary operators -/

variable (kind)

/-- An operand, or something in parentheses that match each other. -/
def Primary (l : List α) : Prop :=
  (∃ t, l = [t] ∧ kind t = .operand) ∨ ∃ m, enclosed kind l = some m

variable {kind}

/-- A primary has no operator outside. -/
theorem Primary.allOutside (h : Primary kind l) (P : Kind → Prop) : AllOutside kind P 0 l := by
  rcases h with ⟨t, rfl, ht⟩ | ⟨m, hm⟩
  · exact ⟨by simp [outside, ht, Kind.isOp], trivial⟩
  · obtain ⟨lp, rp, rfl, hl, hr, hcloses⟩ := enclosed_eq_some_iff.mp hm
    refine ⟨by simp [outside, hl, Kind.isOp], allOutside_append.mpr
      ⟨allOutside_of_closes hcloses (by simp [hl]) P, ?_, trivial⟩⟩
    simp [outside, hr, Kind.isOp]

/-- A primary is not empty. -/
theorem Primary.ne_nil (h : Primary kind l) : l ≠ [] := by
  rcases h with ⟨t, rfl, -⟩ | ⟨m, hm⟩
  · simp
  · rintro rfl
    simp [enclosed] at hm

/-- Unary operators do not change the depth. -/
theorem level_of_unary (h : ∀ t ∈ a, kind t = .unary) : level kind a = 0 := by
  induction a with
  | nil => rfl
  | cons t a ih =>
      rw [List.forall_mem_cons] at h
      rw [level_cons, h.1, Kind.shift_unary, ih h.2, Int.add_zero]

/-- Unary operators have nothing but unary operators outside. -/
theorem allOutside_of_unary (h : ∀ t ∈ a, kind t = .unary) :
    AllOutside kind (fun k => k = .unary) d a := by
  induction a generalizing d with
  | nil => trivial
  | cons t a ih =>
      rw [List.forall_mem_cons] at h
      exact ⟨fun _ => h.1, ih h.2⟩

/-- **Of a chain of unary operators the last one is taken** and the others are dropped. -/
theorem reads_chain {r : Reading α} (ha : ∀ t ∈ a, kind t = .unary) (ho : kind op = .unary)
    (hl : Primary kind l) (h : Reads kind l r) : Reads kind (a ++ op :: l) (.un a op r) := by
  have hlevel := level_of_unary ha
  have hdom : Dominates kind 0 a op l := by
    refine ⟨by simp [outside, hlevel, ho, Kind.isOp], ?_, ?_⟩
    · exact (allOutside_of_unary ha).mono fun k _ hk => by rw [ho, hk]
    · rw [hlevel]
      exact hl.allOutside _
  have hlen := List.length_pos_iff.mpr hl.ne_nil
  exact .un (by rw [List.length_append, List.length_cons]; omega)
    (enclosed_eq_none_of_outside (by simp [outside, hlevel, ho, Kind.isOp]))
    (split_of_dominates hdom) ho h

/-! ## Where an operand is expected -/

/-- After a token, an operand is expected (`true`) or not, if the token may stand there. -/
def Kind.follow : Bool → Kind → Option Bool
  | true, operand => some false
  | true, lpar => some true
  | true, unary => some true
  | false, rpar => some false
  | false, binary _ => some true
  | _, _ => none

/-- An operand comes where one is expected. -/
theorem Kind.follow_operand_iff {e e' : Bool} :
    Kind.follow e .operand = some e' ↔ e = true ∧ e' = false := by
  cases e <;> cases e' <;> simp [Kind.follow]

/-- An operand is expected after everything but an operand and a closing parenthesis. -/
theorem Kind.eq_true_of_follow {e e' : Bool} {k : Kind} (h : Kind.follow e k = some e')
    (ho : k ≠ .operand) (hr : k ≠ .rpar) : e' = true := by
  cases k with
  | operand => exact absurd rfl ho
  | rpar => exact absurd rfl hr
  | lpar => cases e <;> simp_all [Kind.follow]
  | unary => cases e <;> simp_all [Kind.follow]
  | binary p => cases e <;> simp_all [Kind.follow]

variable (kind)

/-- Whether an operand is expected after a list, if every token may stand where it does. -/
def scan : Bool → List α → Option Bool
  | e, [] => some e
  | e, t :: l => (Kind.follow e (kind t)).bind fun e' => scan e' l

variable {kind}

/-- Two stretches are scanned one after the other. -/
theorem scan_append (e : Bool) (a b : List α) :
    scan kind e (a ++ b) = (scan kind e a).bind fun e' => scan kind e' b := by
  induction a generalizing e with
  | nil => rfl
  | cons t a ih =>
      rw [List.cons_append, scan, scan, Option.bind_assoc]
      exact congrArg _ (funext fun e' => ih e')

/-- The first token is scanned first. -/
theorem scan_cons_iff {e e' : Bool} {t : α} : scan kind e (t :: l) = some e' ↔
    ∃ d, Kind.follow e (kind t) = some d ∧ scan kind d l = some e' := by
  rw [scan, Option.bind_eq_some_iff]

/-- An expression stands where an operand is expected, and is one. -/
theorem Derives.scan_eq (h : Derives kind l) : scan kind true l = some false := by
  induction h with
  | operand ht => simp [scan, ht, Kind.follow]
  | paren hl hr _ ih => simp [scan, scan_append, hl, hr, ih, Kind.follow]
  | un ho _ ih => simp [scan, ho, ih, Kind.follow]
  | bin ho _ _ iha ihb => simp [scan, scan_append, ho, iha, ihb, Kind.follow]

end OperatorReading
