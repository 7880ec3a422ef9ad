/-
# What the debuggers take for an expression

Whether an expression has a value at all is decided by its reading: with operators that do
not fail, it has one if and only if the reading has no gaps and its leaves are numbers and
registers (`evalReading_isSome_iff`).

* A list with a value is an expression of the grammar, every token of which is read, if and
  only if nothing stands to the left of a unary operator at which it is divided
  (`understood_iff`).
* Of a chain of unary operators only the last one is applied (`chain_applied_iff`).
* `syntax_check` takes any single token for an expression (`syntaxCheck_agrees_iff`).
-/
import Bailuwan.ExprReading

namespace Bailuwan

namespace Sdb

open OperatorReading

/-! ## Values of readings -/

/-- Numbers and registers have values, and operators do not fail. -/
structure Semantics.Total {V : Type} (S : Semantics V) : Prop where
  number : ∀ str, ∃ v, S.number str = .ok (some v)
  register : ∀ str, ∃ v, S.register str = .ok (some v)
  unary : ∀ type v, ∃ w, S.unary type v = .ok (some w)
  binary : ∀ type v w, ∃ x, S.binary type v w = .ok (some x)

variable {V : Type} {S : Semantics V} {r x y : Reading Token} {op t : Token}
  {dropped ts : List Token} {e : List Char} {v w : V}

/-- The value of a unary operator is made of the one of its operand. -/
theorem evalReading_un (h : evalReading S r = .ok (some v)) :
    evalReading S (.un dropped op r) = S.unary op.type v := by
  rw [evalReading, h]
  rfl

/-- The value of a binary operator is made of those of its operands. -/
theorem evalReading_bin (hx : evalReading S x = .ok (some v))
    (hy : evalReading S y = .ok (some w)) :
    evalReading S (.bin x op y) = S.binary op.type v w := by
  rw [evalReading, hx, ok_bind]
  simp only
  rw [hy]
  rfl

/-- The part of a unary operator has a value, if the whole has one. -/
theorem evalReading_of_un (h : evalReading S (.un dropped op r) = .ok (some v)) :
    ∃ w, evalReading S r = .ok (some w) := by
  rw [evalReading] at h
  cases hr : evalReading S r with
  | error f => rw [hr] at h; cases h
  | ok w =>
      cases w with
      | none => rw [hr] at h; cases h
      | some w => exact ⟨w, rfl⟩

/-- The parts of a binary operator have values, if the whole has one. -/
theorem evalReading_of_bin (h : evalReading S (.bin x op y) = .ok (some v)) :
    (∃ w, evalReading S x = .ok (some w)) ∧ ∃ w, evalReading S y = .ok (some w) := by
  rw [evalReading] at h
  cases hx : evalReading S x with
  | error f => rw [hx] at h; cases h
  | ok a =>
      rw [hx, ok_bind] at h
      cases a with
      | none => cases h
      | some a =>
          simp only at h
          cases hy : evalReading S y with
          | error f => rw [hy] at h; cases h
          | ok b =>
              cases b with
              | none => rw [hy] at h; cases h
              | some b => exact ⟨⟨a, rfl⟩, b, rfl⟩

/-- What has a value is read without gaps, down to numbers and registers. -/
theorem complete_of_value (h : evalReading S r = .ok (some v)) :
    r.Complete ∧ ∀ t ∈ r.leaves, kind t = .operand := by
  induction r generalizing v with
  | nothing => cases h
  | leaf t =>
      refine ⟨trivial, fun u hu => ?_⟩
      obtain rfl := List.mem_singleton.mp hu
      rw [kind_operand_iff]
      by_contra hno
      obtain ⟨hnum, hreg⟩ := not_or.mp hno
      rw [evalReading, if_neg hnum, if_neg hreg] at h
      cases h
  | paren r ih => exact ih h
  | un dropped op r ih =>
      obtain ⟨w, hw⟩ := evalReading_of_un h
      exact ih hw
  | bin x op y ihx ihy =>
      obtain ⟨⟨a, ha⟩, b, hb⟩ := evalReading_of_bin h
      obtain ⟨hxw, hxl⟩ := ihx ha
      obtain ⟨hyw, hyl⟩ := ihy hb
      refine ⟨⟨hxw, hyw⟩, fun t ht => ?_⟩
      rcases List.mem_append.mp ht with ht | ht
      · exact hxl t ht
      · exact hyl t ht

/-- What is read without gaps, down to numbers and registers, has a value if nothing fails. -/
theorem value_of_complete (hS : S.Total) (hwhole : r.Complete)
    (hleaves : ∀ t ∈ r.leaves, kind t = .operand) : ∃ v, evalReading S r = .ok (some v) := by
  induction r with
  | nothing => exact hwhole.elim
  | leaf t =>
      rw [evalReading]
      by_cases hnum : t.type = .num
      · rw [if_pos hnum]
        exact hS.number t.str
      · have hreg := (kind_operand_iff.mp (hleaves t (by simp [Reading.leaves]))).resolve_left hnum
        rw [if_neg hnum, if_pos hreg]
        exact hS.register t.str
  | paren r ih => exact ih hwhole hleaves
  | un dropped op r ih =>
      obtain ⟨v, hv⟩ := ih hwhole hleaves
      rw [evalReading_un hv]
      exact hS.unary op.type v
  | bin x op y ihx ihy =>
      obtain ⟨v, hv⟩ := ihx hwhole.1 fun t ht => hleaves t (List.mem_append_left _ ht)
      obtain ⟨w, hw⟩ := ihy hwhole.2 fun t ht => hleaves t (List.mem_append_right _ ht)
      rw [evalReading_bin hv hw]
      exact hS.binary op.type v w

/-- **What has a value**, where nothing fails. -/
theorem evalReading_isSome_iff (hS : S.Total) : (∃ v, evalReading S r = .ok (some v)) ↔
    r.Complete ∧ ∀ t ∈ r.leaves, kind t = .operand := by
  constructor
  · rintro ⟨v, hv⟩
    exact complete_of_value hv
  · rintro ⟨hwhole, hleaves⟩
    exact value_of_complete hS hwhole hleaves

/-- `expr` evaluates what the tokens are read as. -/
theorem expr_of_tokenize (h : tokenize e = some ts) :
    expr S e = evalReading S (descend kind ts) := by
  rw [expr_eq, h]
  rfl

/-! ## The syntax check -/

/-- Evaluation can only fail for what the expression means: it does not fail where numbers
and registers have values and no operator fails. -/
def FailsForMeaningOnly (e : List Char) : Prop :=
  ∀ (V : Type) (S : Semantics V), S.Total → ∃ v, expr S e = .ok (some v)

/-- A semantics of a single value. -/
def unitSemantics : Semantics Unit where
  number _ := .ok (some ())
  register _ := .ok (some ())
  unary _ _ := .ok (some ())
  binary _ _ _ := .ok (some ())

/-- With a single value everything has a meaning. -/
theorem unitSemantics_total : unitSemantics.Total where
  number _ := ⟨(), rfl⟩
  register _ := ⟨(), rfl⟩
  unary _ _ := ⟨(), rfl⟩
  binary _ _ _ := ⟨(), rfl⟩

/-- Without a value the only reason left is the meaning. -/
theorem failsForMeaningOnly_iff (h : tokenize e = some ts) : FailsForMeaningOnly e ↔
    (descend kind ts).Complete ∧ ∀ t ∈ (descend kind ts).leaves, kind t = .operand := by
  constructor
  · intro hall
    obtain ⟨v, hv⟩ := hall Unit unitSemantics unitSemantics_total
    rw [expr_of_tokenize h] at hv
    exact complete_of_value hv
  · rintro ⟨hwhole, hleaves⟩ V S hS
    rw [expr_of_tokenize h]
    exact value_of_complete hS hwhole hleaves

/-- **`syntax_check` agrees with `eval`** if and only if the single tokens that it gets down
to, in an expression that it accepts, are numbers and registers. -/
theorem syntaxCheck_agrees_iff (h : tokenize e = some ts) :
    (syntaxCheck e = .ok true ↔ FailsForMeaningOnly e) ↔
      ((descend kind ts).Complete →
        ∀ t ∈ (descend kind ts).leaves, t.type = .num ∨ t.type = .reg) := by
  have hcheck : syntaxCheck e = .ok true ↔ (descend kind ts).Complete := by
    rw [syntaxCheck_eq, h]
    simp
  rw [hcheck, failsForMeaningOnly_iff h]
  constructor
  · intro hiff hwhole t ht
    exact kind_operand_iff.mp ((hiff.mp hwhole).2 t ht)
  · intro hleaves
    refine ⟨fun hwhole => ⟨hwhole, fun t ht => ?_⟩, And.left⟩
    exact kind_operand_iff.mpr (hleaves hwhole t ht)

/-- `1+2` -/
theorem syntaxCheck_agrees_sum : tokenize ['1', '+', '2'] =
      some [⟨.num, ['1']⟩, ⟨.add, []⟩, ⟨.num, ['2']⟩] ∧
    ((syntaxCheck ['1', '+', '2'] = .ok true ↔ FailsForMeaningOnly ['1', '+', '2']) ↔
      ((descend kind [⟨.num, ['1']⟩, ⟨.add, []⟩, ⟨.num, ['2']⟩]).Complete →
        ∀ t ∈ (descend kind [⟨.num, ['1']⟩, ⟨.add, []⟩, ⟨.num, ['2']⟩]).leaves,
          t.type = .num ∨ t.type = .reg)) :=
  ⟨by decide, syntaxCheck_agrees_iff (by decide)⟩

/-- A lone `+` is accepted, and never has a value. -/
theorem lonePlus_accepted : tokenize ['+'] = some [⟨.add, []⟩] ∧
    ¬ (syntaxCheck ['+'] = .ok true ↔ FailsForMeaningOnly ['+']) := by
  refine ⟨by decide, fun hiff => ?_⟩
  obtain ⟨v, hv⟩ := hiff.mp (by decide) Unit unitSemantics unitSemantics_total
  have htokens : tokenize ['+'] = some [⟨.add, []⟩] := by decide
  rw [expr_of_tokenize htokens, descend_singleton] at hv
  cases hv

/-! ## What is accepted -/

/-- The tokens are an expression, and none of them is ignored. -/
def Understood (ts : List Token) : Prop :=
  Derives kind ts ∧ (descend kind ts).size = ts.length

/-- What is read without gaps, down to numbers and registers, is understood if and only if
it is read without dropping anything. -/
theorem understood_iff (hwhole : (descend kind ts).Complete)
    (hleaves : ∀ t ∈ (descend kind ts).leaves, kind t = .operand) :
    Understood ts ↔ (descend kind ts).DropsNothing := by
  have hreads := reads_descend kind ts
  rw [Understood, derives_iff hreads hwhole hleaves, hreads.size_eq_iff hwhole]
  exact ⟨And.right, fun h => ⟨h.dropsUnary, h⟩⟩

/-- **An expression that a debugger accepts is understood** if and only if nothing stands to
the left of a unary operator at which it is divided. -/
theorem accepted_understood_iff {d : Debugger} {value : Word} (h : tokenize e = some ts)
    (hvalue : d.expr e = .ok (some value)) :
    Understood ts ↔ (descend kind ts).DropsNothing := by
  rw [Debugger.expr, expr_of_tokenize h] at hvalue
  obtain ⟨hwhole, hleaves⟩ := complete_of_value hvalue
  exact understood_iff hwhole hleaves

/-- `!5` -/
theorem accepted_understood_not : tokenize ['!', '5'] = some [⟨.unaryLnot, []⟩, ⟨.num, ['5']⟩] ∧
    (Debugger.npc zeroNpc).expr ['!', '5'] = .ok (some 0) ∧
    (Understood [⟨.unaryLnot, []⟩, ⟨.num, ['5']⟩] ↔
      (descend kind [⟨.unaryLnot, []⟩, ⟨.num, ['5']⟩]).DropsNothing) := by
  have htokens : tokenize ['!', '5'] = some [⟨.unaryLnot, []⟩, ⟨.num, ['5']⟩] := by decide
  have hvalue : (Debugger.npc zeroNpc).expr ['!', '5'] = .ok (some 0) := by rfl
  exact ⟨htokens, hvalue, accepted_understood_iff htokens hvalue⟩

/-- `5 ! 3` is accepted, though it is no expression. -/
theorem operandBeforeUnary_accepted :
    tokenize ['5', '!', '3'] = some [⟨.num, ['5']⟩, ⟨.unaryLnot, []⟩, ⟨.num, ['3']⟩] ∧
    (Debugger.npc zeroNpc).expr ['5', '!', '3'] = .ok (some 0) ∧
    ¬ Derives kind [⟨.num, ['5']⟩, ⟨.unaryLnot, []⟩, ⟨.num, ['3']⟩] := by
  refine ⟨by decide, by rfl, fun hder => ?_⟩
  exact absurd hder.scan_eq (by decide)

/-! ## Chains of unary operators -/

/-- Where a list of tokens stands in an expression: alone, or as an operand of the operator
that is applied last. -/
inductive Context
  | alone
  | rightOf (left : List Token) (op : Token)
  | leftOf (op : Token) (right : List Token)

namespace Context

/-- The list in its context. -/
def fill : Context → List Token → List Token
  | alone, l => l
  | rightOf left op, l => left ++ op :: l
  | leftOf op right, l => l ++ op :: right

/-- The operator is the binary one that is applied last, and the other operand is an
expression. -/
def IsOperand : Context → List Token → Prop
  | alone, _ => True
  | rightOf left op, l => Dominates kind 0 left op l ∧ kind op ≠ .unary ∧ Derives kind left
  | leftOf op right, l => Dominates kind 0 l op right ∧ kind op ≠ .unary ∧ Derives kind right

/-- The reading of the whole, from the one of the list. -/
def reading : Context → Reading Token → Reading Token
  | alone, r => r
  | rightOf left op, r => .bin (descend kind left) op r
  | leftOf op right, r => .bin r op (descend kind right)

/-- What stands in a context is read in its place. -/
theorem reads {c : Context} {l : List Token} (hc : c.IsOperand l) (hne : l ≠ [])
    (h : Reads kind l r) : Reads kind (c.fill l) (c.reading r) := by
  have hpos := List.length_pos_iff.mpr hne
  cases c with
  | alone => exact h
  | rightOf left op =>
      obtain ⟨hdom, hop, hleft⟩ := hc
      have hlen := List.length_pos_iff.mpr hleft.ne_nil
      refine .bin ?_ (enclosed_eq_none_of_outside ?_) (split_of_dominates hdom) hop
        (reads_descend kind left) h
      · rw [fill, List.length_append, List.length_cons]
        omega
      · simpa using hdom.outside
  | leftOf op right =>
      obtain ⟨hdom, hop, hright⟩ := hc
      refine .bin ?_ (enclosed_eq_none_of_outside ?_) (split_of_dominates hdom) hop h
        (reads_descend kind right)
      · rw [fill, List.length_append, List.length_cons]
        omega
      · simpa using hdom.outside

end Context

variable {us l : List Token} {c : Context}

/-- The operators of a list, applied from the right to the left. -/
def nest (us : List Token) (r : Reading Token) : Reading Token :=
  us.foldr (fun u r => .un [] u r) r

/-- A chain of unary operators before an operand or something in parentheses. -/
structure IsChain (us l : List Token) : Prop where
  ne_nil : us ≠ []
  operators : ∀ u ∈ us, u.type = .unaryMinus ∨ u.type = .unaryLnot ∨ u.type = .unaryNot
  primary : Primary kind l
  derives : Derives kind l

namespace IsChain

/-- The operators of a chain are unary. -/
theorem unary (h : IsChain us l) : ∀ u ∈ us, kind u = .unary := by
  intro u hu
  rw [kind_unary_iff]
  rcases h.operators u hu with ht | ht | ht <;> rw [ht] <;> rfl

/-- Only the last operator of a chain is read. -/
theorem reads (h : IsChain us l) : ∃ before u, us = before ++ [u] ∧
    Reads kind (us ++ l) (.un before u (descend kind l)) := by
  have hunary := h.unary
  rcases List.eq_nil_or_concat us with rfl | ⟨before, u, rfl⟩
  · exact absurd rfl h.ne_nil
  · rw [List.concat_eq_append] at hunary ⊢
    refine ⟨before, u, rfl, ?_⟩
    rw [List.append_assoc]
    exact reads_chain (fun t ht => hunary t (List.mem_append_left _ ht)) (hunary u (by simp))
      h.primary (reads_descend kind l)

end IsChain

/-- A debugger's way with a chain: the last operator is applied, the others are not. -/
theorem expr_chain (h : tokenize e = some (c.fill (us ++ l))) (hchain : IsChain us l)
    (hc : c.IsOperand (us ++ l)) (S : Semantics V) : ∃ before u, us = before ++ [u] ∧
      expr S e = evalReading S (c.reading (.un before u (descend kind l))) := by
  obtain ⟨before, u, hus, hreads⟩ := hchain.reads
  have hne : us ++ l ≠ [] := by simp [hchain.ne_nil]
  refine ⟨before, u, hus, ?_⟩
  rw [expr_of_tokenize h, (Context.reads hc hne hreads).descend_eq]

/-- Every operator of the chain is applied, once and from the right to the left, whatever
the operators do. -/
def AppliesChain (c : Context) (us l : List Token) (e : List Char) : Prop :=
  ∀ (V : Type) (S : Semantics V), expr S e = evalReading S (c.reading (nest us (descend kind l)))

/-- Values that count the unary operators applied to the operand in a context. -/
def counting (c : Context) : Semantics ℕ where
  number _ := .ok (some 0)
  register _ := .ok (some 0)
  unary _ n := .ok (some (n + 1))
  binary _ m n := .ok (some (match c with | .leftOf _ _ => m | _ => n))

/-- Every operator counts. -/
theorem counting_total (c : Context) : (counting c).Total where
  number _ := ⟨0, rfl⟩
  register _ := ⟨0, rfl⟩
  unary _ n := ⟨n + 1, rfl⟩
  binary _ _ _ := ⟨_, rfl⟩

/-- A chain counts as many as it has operators. -/
theorem evalReading_nest {n : ℕ} (h : evalReading (counting c) r = .ok (some n)) :
    evalReading (counting c) (nest us r) = .ok (some (n + us.length)) := by
  induction us with
  | nil => exact h
  | cons u us ih =>
      show evalReading (counting c) (.un [] u (nest us r)) = .ok (some (n + (us.length + 1)))
      exact evalReading_un ih

/-- The context counts nothing. -/
theorem evalReading_counting {n : ℕ} (hc : c.IsOperand l)
    (h : evalReading (counting c) r = .ok (some n)) :
    evalReading (counting c) (c.reading r) = .ok (some n) := by
  cases c with
  | alone => exact h
  | rightOf left op =>
      obtain ⟨-, -, hleft⟩ := hc
      obtain ⟨hwhole, hleaves⟩ := hleft.complete (reads_descend kind left)
      obtain ⟨m, hm⟩ := value_of_complete (counting_total (.rightOf left op)) hwhole hleaves
      exact evalReading_bin hm h
  | leftOf op right =>
      obtain ⟨-, -, hright⟩ := hc
      obtain ⟨hwhole, hleaves⟩ := hright.complete (reads_descend kind right)
      obtain ⟨m, hm⟩ := value_of_complete (counting_total (.leftOf op right)) hwhole hleaves
      exact evalReading_bin h hm

/-- **Every operator of a chain is applied** if and only if it has a single one. -/
theorem chain_applied_iff (h : tokenize e = some (c.fill (us ++ l))) (hchain : IsChain us l)
    (hc : c.IsOperand (us ++ l)) : AppliesChain c us l e ↔ us.length = 1 := by
  constructor
  · intro happlies
    obtain ⟨before, u, -, hexpr⟩ := expr_chain h hchain hc (counting c)
    obtain ⟨hwhole, hleaves⟩ := hchain.derives.complete (reads_descend kind l)
    obtain ⟨n, hn⟩ := value_of_complete (counting_total c) hwhole hleaves
    have hone : evalReading (counting c) (.un before u (descend kind l)) = .ok (some (n + 1)) :=
      evalReading_un hn
    have hall := happlies ℕ (counting c)
    rw [hexpr, evalReading_counting hc hone, evalReading_counting hc (evalReading_nest hn)] at hall
    have : n + 1 = n + us.length := by simpa using hall
    omega
  · intro hone V S
    obtain ⟨before, u, hus, hexpr⟩ := expr_chain h hchain hc S
    have hbefore : before = [] := by
      rw [hus, List.length_append] at hone
      simpa using hone
    rw [hexpr, hus, hbefore]
    rfl

/-- `-5` -/
theorem chain_applied_minus : tokenize ['-', '5'] = some [⟨.unaryMinus, []⟩, ⟨.num, ['5']⟩] ∧
    (AppliesChain .alone [⟨.unaryMinus, []⟩] [⟨.num, ['5']⟩] ['-', '5'] ↔
      ([⟨.unaryMinus, []⟩] : List Token).length = 1) := by
  have hchain : IsChain [⟨.unaryMinus, []⟩] [⟨.num, ['5']⟩] :=
    ⟨by simp, by simp, .inl ⟨_, rfl, rfl⟩, .operand rfl⟩
  exact ⟨by decide, chain_applied_iff (c := .alone) (by decide) hchain trivial⟩

/-- `!!5` is 0, like `!5`, where `!(!5)` is 1. -/
theorem doubleNot_applied_once :
    tokenize ['!', '!', '5'] = some [⟨.unaryLnot, []⟩, ⟨.unaryLnot, []⟩, ⟨.num, ['5']⟩] ∧
    (Debugger.npc zeroNpc).expr ['!', '!', '5'] = .ok (some 0) ∧
    evalReading zeroNpc.semantics
      (nest [⟨.unaryLnot, []⟩, ⟨.unaryLnot, []⟩] (.leaf ⟨.num, ['5']⟩)) = .ok (some 1) ∧
    ¬ AppliesChain .alone [⟨.unaryLnot, []⟩, ⟨.unaryLnot, []⟩] [⟨.num, ['5']⟩] ['!', '!', '5'] := by
  have hexpr : (Debugger.npc zeroNpc).expr ['!', '!', '5'] = .ok (some 0) := by rfl
  have hnest : evalReading zeroNpc.semantics
      (nest [⟨.unaryLnot, []⟩, ⟨.unaryLnot, []⟩] (.leaf ⟨.num, ['5']⟩)) = .ok (some 1) := by rfl
  refine ⟨by decide, hexpr, hnest, fun happlies => ?_⟩
  have hall := happlies Word zeroNpc.semantics
  rw [Context.reading, descend_singleton, hnest] at hall
  have hboth := hexpr.symm.trans hall
  exact absurd hboth (by decide)

end Sdb

end Bailuwan
