/-
# When the evaluation of an expression ends the debugger

Every range that the debuggers come to is within the token array, and every operator that
they come to has a case, so what remains is what numbers, registers and operators do: the
evaluation returns if and only if none of those that it comes to ends the debugger
(`returns_iff`).  In the simulator none does.  NEMU dereferences without looking where, and
`paddr_read` ends it outside of the memory and the devices (`neverAborts_iff`).
-/
import Bailuwan.ExprSyntax

namespace Bailuwan

namespace Sdb

open OperatorReading

/-! ## Returning -/

variable {V : Type} {S : Semantics V} {r x y : Reading Token} {op t : Token}
  {dropped ts l : List Token} {e : List Char}

/-- There is a result, a value or a failure. -/
def Returns {α : Type} (res : Except Fault α) : Prop := ∃ v, res = .ok v

@[simp] theorem returns_ok {α : Type} (v : α) : Returns (.ok v : Except Fault α) := ⟨v, rfl⟩

@[simp] theorem not_returns_error {α : Type} (f : Fault) :
    ¬ Returns (.error f : Except Fault α) := by
  rintro ⟨v, hv⟩
  cases hv

/-- What is made of the result does not abort. -/
theorem returns_map {α β : Type} (f : α → β) (res : Except Fault α) :
    Returns (res.map f) ↔ Returns res := by
  cases res <;> simp [Except.map]

/-- The registers and unary operators that the evaluation of a reading comes to return. -/
def Undisturbed (S : Semantics V) : Reading Token → Prop
  | .nothing => True
  | .leaf t => t.type = .reg → Returns (S.register t.str)
  | .paren r => Undisturbed S r
  | .un _ op r =>
      Undisturbed S r ∧ ∀ v, evalReading S r = .ok (some v) → Returns (S.unary op.type v)
  | .bin x _ y => Undisturbed S x ∧ ((∃ v, evalReading S x = .ok (some v)) → Undisturbed S y)

/-- A unary operator returns if its operand does and it does itself. -/
theorem returns_un : Returns (evalReading S (.un dropped op r)) ↔ Returns (evalReading S r) ∧
    ∀ v, evalReading S r = .ok (some v) → Returns (S.unary op.type v) := by
  rw [evalReading]
  cases hr : evalReading S r with
  | error f => simp [bind, Except.bind]
  | ok v =>
      cases v with
      | none => simp
      | some v => simp

/-- A binary operator returns if its operands do; the right one is only asked for after the left. -/
theorem returns_bin (hbin : ∀ v w, Returns (S.binary op.type v w)) :
    Returns (evalReading S (.bin x op y)) ↔ Returns (evalReading S x) ∧
      ((∃ v, evalReading S x = .ok (some v)) → Returns (evalReading S y)) := by
  rw [evalReading]
  cases hx : evalReading S x with
  | error f => simp [bind, Except.bind]
  | ok v =>
      cases v with
      | none => simp
      | some v =>
          rw [ok_bind]
          simp only [returns_ok, true_and, Except.ok.injEq, Option.some.injEq, exists_eq',
            forall_const]
          cases hy : evalReading S y with
          | error f => simp [bind, Except.bind]
          | ok w =>
              cases w with
              | none => simp
              | some w => simpa using hbin v w

/-- **The evaluation returns** if and only if nothing that it comes to ends the debugger. -/
theorem returns_iff (hnum : ∀ str, Returns (S.number str))
    (hbin : ∀ type v w, type.isBinary = true → Returns (S.binary type v w))
    (hr : Reads kind l r) : Returns (evalReading S r) ↔ Undisturbed S r := by
  induction hr with
  | nil => simp [evalReading, Undisturbed]
  | stuck => simp [evalReading, Undisturbed]
  | leaf t =>
      rw [evalReading, Undisturbed]
      by_cases hn : t.type = .num
      · rw [if_pos hn]
        exact ⟨fun _ ht => absurd (hn.symm.trans ht) (by decide), fun _ => hnum t.str⟩
      · rw [if_neg hn]
        by_cases hreg : t.type = .reg
        · rw [if_pos hreg]
          exact ⟨fun h _ => h, fun h => h hreg⟩
        · rw [if_neg hreg]
          exact ⟨fun _ ht => absurd ht hreg, fun _ => returns_ok none⟩
  | paren _ _ ih => exact ih
  | un _ _ _ _ _ ih => rw [returns_un, ih, Undisturbed]
  | bin _ _ hs ho _ _ iha ihb =>
      have hop := isBinary_of_kind (dominates_of_split hs).2.isOp ho
      rw [returns_bin fun v w => hbin _ v w hop, iha, ihb, Undisturbed]

/-- A fault of a unary operator is its own or the operand's. -/
theorem fault_un {f : Fault} {d : List Token} {op : Token} {r : Reading Token}
    (h : evalReading S (.un d op r) = .error f) :
    evalReading S r = .error f ∨ ∃ v, S.unary op.type v = .error f := by
  rw [evalReading] at h
  cases hr : evalReading S r with
  | error g =>
      rw [hr] at h
      cases h
      exact Or.inl rfl
  | ok v =>
      rw [hr, ok_bind] at h
      cases v with
      | none => cases h
      | some v => exact Or.inr ⟨v, h⟩

/-- One of a binary operator is its own or an operand's. -/
theorem fault_bin {f : Fault} {op : Token} {x y : Reading Token}
    (h : evalReading S (.bin x op y) = .error f) :
    evalReading S x = .error f ∨ evalReading S y = .error f ∨
      ∃ v w, S.binary op.type v w = .error f := by
  rw [evalReading] at h
  cases hx : evalReading S x with
  | error g =>
      rw [hx] at h
      cases h
      exact Or.inl rfl
  | ok v =>
      rw [hx, ok_bind] at h
      cases v with
      | none => cases h
      | some v =>
          simp only at h
          cases hy : evalReading S y with
          | error g =>
              rw [hy] at h
              cases h
              exact Or.inr (Or.inl rfl)
          | ok w =>
              rw [hy, ok_bind] at h
              cases w with
              | none => cases h
              | some w => exact Or.inr (Or.inr ⟨v, w, h⟩)

/-- Where the evaluation does not return, a register or a unary operator did not. -/
theorem fault_of_evalReading {f : Fault} (hnum : ∀ str, Returns (S.number str))
    (hbin : ∀ type v w, type.isBinary = true → Returns (S.binary type v w))
    (hr : Reads kind l r) (h : evalReading S r = .error f) :
    (∃ str, S.register str = .error f) ∨
      ∃ type v, type.isUnary = true ∧ S.unary type v = .error f := by
  induction hr with
  | nil => cases h
  | stuck => cases h
  | leaf t =>
      rw [evalReading] at h
      split_ifs at h
      · exact absurd (hnum t.str) (by rw [h]; exact not_returns_error f)
      · exact Or.inl ⟨t.str, h⟩
  | paren _ _ ih => exact ih h
  | @un l a b op r _ _ _ ho _ ih =>
      rcases fault_un h with hr | ⟨v, hv⟩
      · exact ih hr
      · exact Or.inr ⟨op.type, v, kind_unary_iff.mp ho, hv⟩
  | @bin l a b op x y _ _ hs ho _ _ iha ihb =>
      have hop := isBinary_of_kind (dominates_of_split hs).2.isOp ho
      rcases fault_bin h with hx | hy | ⟨v, w, hvw⟩
      · exact iha hx
      · exact ihb hy
      · exact absurd (hbin op.type v w hop) (by rw [hvw]; exact not_returns_error f)

/-! ## What both debuggers share -/

theorem evalNumber_returns (str : List Char) : Returns (evalNumber str) := ⟨_, rfl⟩

/-- A binary operator does not abort; a division by zero has no value. -/
theorem evalBinary_returns (wide : TokenType → Word → Word → Word) (type : TokenType)
    (v w : Word) (h : type.isBinary = true) : Returns (evalBinary wide type v w) := by
  cases type <;> first | exact ⟨_, rfl⟩ | exact absurd h (by decide)

/-- A unary operator returns, unless it is a dereference that does not. -/
theorem evalUnary_returns_iff {deref : Word → Except Fault (Option Word)} {type : TokenType}
    (v : Word) (h : type.isUnary = true) : Returns (evalUnary deref type v) ↔
      (type = .unaryDeref → Returns (deref v)) := by
  cases type <;> first
    | exact ⟨fun _ ht => absurd ht (by decide), fun _ => ⟨_, rfl⟩⟩
    | exact ⟨fun h _ => h, fun h => h rfl⟩
    | exact absurd h (by decide)

/-- What ends a unary operator is a dereference. -/
theorem evalUnary_fault {deref : Word → Except Fault (Option Word)} {type : TokenType} {v : Word}
    {f : Fault} (htype : type.isUnary = true) (h : evalUnary deref type v = .error f) :
    deref v = .error f := by
  cases type <;> first
    | exact absurd htype (by decide)
    | exact h
    | cases h

/-- The number of the general register that a text names, if it names one. -/
def gprIndex (s : List Char) : Option ℕ :=
  if s = ['p', 'c'] then none
  else if s.head? = some 'x' ∨ s.head? = some 'X' then
    (strtol s.tail 10).map fun n => (BitVec.ofInt 32 n).toNat
  else gprNames.findIdx? (· == s)

/-- A register returns if `isa_reg_str2val` does. -/
theorem evalRegister_returns_iff {reg : List Char → Except Fault (Option Word)}
    {csr : List Char → Option Word} {str : List Char} :
    Returns (evalRegister reg csr str) ↔ Returns (reg (str.drop 1)) := by
  rw [evalRegister]
  cases h : reg (str.drop 1) with
  | error f => simp [bind, Except.bind]
  | ok v => cases v <;> simp

/-! ## The simulator -/

/-- In the hardware's debugger a name is a register or none. -/
theorem Npc.isaRegStr2val_returns (n : Npc) (s : List Char) : Returns (n.isaRegStr2val s) := by
  rw [Npc.isaRegStr2val, Sdb.isaRegStr2val]
  split_ifs
  · exact returns_ok _
  · cases strtol s.tail 10 with
    | none => exact returns_ok _
    | some idx =>
        simp only
        split_ifs <;> exact returns_ok _
  · cases (gprNames.take 16).findIdx? (· == s) <;> exact returns_ok _

/-- The address of a dereference is checked before it is read. -/
theorem Npc.deref_returns (n : Npc) (v : Word) : Returns (n.deref v) := by
  rw [Npc.deref]
  split_ifs with hal hin
  · exact returns_ok _
  · exact returns_ok _
  · rw [DUTMemory.read, if_pos (by simpa using hin)]
    exact returns_ok _

/-- Nothing in this debugger aborts. -/
theorem Npc.undisturbed (n : Npc) (hr : Reads kind l r) : Undisturbed n.semantics r := by
  induction hr with
  | nil => trivial
  | stuck => trivial
  | leaf t => exact fun _ => evalRegister_returns_iff.mpr (n.isaRegStr2val_returns _)
  | paren _ _ ih => exact ih
  | un _ _ _ ho _ ih =>
      refine ⟨ih, fun v _ => ?_⟩
      exact (evalUnary_returns_iff v (kind_unary_iff.mp ho)).mpr fun _ => n.deref_returns v
  | bin _ _ _ _ _ _ iha ihb => exact ⟨iha, fun _ => ihb⟩

/-- **The debugger of the simulator returns**, whatever the expression is. -/
theorem Npc.expr_returns (n : Npc) (e : List Char) : Returns ((Debugger.npc n).expr e) := by
  rw [Debugger.expr, expr_eq]
  cases tokenize e with
  | none => exact returns_ok none
  | some ts =>
      have hr := reads_descend kind ts
      exact (returns_iff evalNumber_returns (evalBinary_returns n.wideShift) hr).mpr
        (n.undisturbed hr)

/-! ## NEMU -/

namespace Nemu

variable (m : Nemu)

/-- With the registers of RV32E and run-time checks, the upper half of the registers is not
looked up. -/
def Looks (str : List Char) : Prop :=
  m.rtCheck = true → m.rve = true → ∀ idx, gprIndex (str.drop 1) = some idx →
    idx < 16 ∨ 32 ≤ idx

/-- There is something to be read at an address: memory, a device whose callback agrees with
the access, or anything at all with `in_difftest_tracesim`. -/
def Mapped (addr : Word) : Prop :=
  m.inPmem addr = true ∨ ∃ maps, m.maps = some maps ∧
    ((∃ map, (maps.find? fun map => BitVec.ule map.low addr && BitVec.ule addr map.high) =
        some map ∧ (map.read (addr - map.low)).isSome = true) ∨
      ((maps.find? fun map => BitVec.ule map.low addr && BitVec.ule addr map.high) = none ∧
        m.inDifftestTracesim = true))

/-- The dereferences that the evaluation of a reading comes to find something to be read,
and its registers exist. -/
def Reaches : Reading Token → Prop
  | .nothing => True
  | .leaf t => t.type = .reg → m.Looks t.str
  | .paren r => Reaches r
  | .un _ op r => Reaches r ∧
      (op.type = .unaryDeref → ∀ v, evalReading m.semantics r = .ok (some v) → m.Mapped v)
  | .bin x _ y => Reaches x ∧ ((∃ v, evalReading m.semantics x = .ok (some v)) → Reaches y)

variable {m}

/-- The assertion of `check_reg_idx` is the only one of a register. -/
theorem gpr_returns_iff {idx : ℕ} (h : idx < 32) : Returns (m.gpr idx) ↔
    (m.rtCheck = true → m.rve = true → idx < 16) := by
  rw [Nemu.gpr]
  by_cases hc : m.rtCheck = true
  · by_cases hv : m.rve = true
    · by_cases hlt : idx < 16 <;> simp [hc, hv, hlt]
    · simp [hc, hv, h]
  · simp [hc]

/-- The names of NEMU return unless RVE has no such register. -/
theorem isaRegStr2val_returns_iff {s : List Char} : Returns (m.isaRegStr2val s) ↔
    (m.rtCheck = true → m.rve = true → ∀ idx, gprIndex s = some idx → idx < 16 ∨ 32 ≤ idx) := by
  rw [Nemu.isaRegStr2val, Sdb.isaRegStr2val, gprIndex]
  have hnames : gprNames.take 32 = gprNames := by rfl
  split_ifs with hpc hx
  · simp
  · cases strtol s.tail 10 with
    | none => simp
    | some n =>
        simp only [Option.map_some, Option.some.injEq, forall_eq']
        by_cases hlt : (BitVec.ofInt 32 n).toNat < 32
        · rw [if_neg (by omega), returns_map, gpr_returns_iff hlt]
          exact ⟨fun h hc hv => Or.inl (h hc hv), fun h hc hv => (h hc hv).resolve_right (by omega)⟩
        · rw [if_pos (by omega)]
          exact ⟨fun _ _ _ => Or.inr (by omega), fun _ => returns_ok none⟩
  · rw [hnames]
    cases hi : gprNames.findIdx? (· == s) with
    | none => simp
    | some idx =>
        have hlt : idx < 32 := by
          have := (List.findIdx?_eq_some_iff_getElem.mp hi).1
          exact this
        simp only [Option.some.injEq, forall_eq']
        rw [returns_map, gpr_returns_iff hlt]
        exact ⟨fun h hc hv => Or.inl (h hc hv), fun h hc hv => (h hc hv).resolve_right (by omega)⟩

/-- Memory returns where something is mapped. -/
theorem paddrRead_returns_iff {addr : Word} : Returns (m.paddrRead addr) ↔ m.Mapped addr := by
  rw [Nemu.paddrRead, Mapped]
  by_cases hin : m.inPmem addr = true
  · simp [hin]
  · rw [if_neg hin]
    cases hmaps : m.maps with
    | none => simp [hin]
    | some maps =>
        simp only [hin, Bool.false_eq_true, false_or, Option.some.injEq, exists_eq_left',
          Nemu.mmioRead]
        cases hfind : maps.find? fun map =>
            BitVec.ule map.low addr && BitVec.ule addr map.high with
        | none => by_cases hd : m.inDifftestTracesim = true <;> simp [hd]
        | some map => cases hread : map.read (addr - map.low) <;> simp [hread]

/-- `*` returns where something is mapped. -/
theorem deref_returns_iff (m : Nemu) {addr : Word} : Returns (m.deref addr) ↔ m.Mapped addr := by
  rw [Nemu.deref, returns_map, paddrRead_returns_iff]

/-- An expression is undisturbed if everything it reads is there. -/
theorem undisturbed_iff (hr : Reads kind l r) : Undisturbed m.semantics r ↔ m.Reaches r := by
  induction hr with
  | nil => exact Iff.rfl
  | stuck => exact Iff.rfl
  | leaf t =>
      refine forall_congr' fun _ => ?_
      rw [Looks, ← isaRegStr2val_returns_iff]
      exact evalRegister_returns_iff
  | paren _ _ ih => exact ih
  | @un l a b op r _ _ _ ho _ ih =>
      have hop := kind_unary_iff.mp ho
      have hunary : ∀ v, Returns (m.semantics.unary op.type v) ↔
          (op.type = .unaryDeref → m.Mapped v) := by
        intro v
        rw [← m.deref_returns_iff]
        exact evalUnary_returns_iff v hop
      rw [Undisturbed, Reaches, ih]
      refine and_congr_right fun _ => ⟨fun h hd v hv => ?_, fun h v hv => ?_⟩
      · exact (hunary v).mp (h v hv) hd
      · exact (hunary v).mpr fun hd => h hd v hv
  | bin _ _ _ _ _ _ iha ihb => rw [Undisturbed, Reaches, iha, ihb]

/-- A register aborts by the assertion. -/
theorem gpr_fault {idx : ℕ} {f : Fault} (h : m.gpr idx = .error f) : f = .assertion := by
  rw [Nemu.gpr] at h
  by_cases hc : m.rtCheck = true ∧ ¬ idx < (if m.rve then 16 else 32)
  · rw [if_pos hc] at h
    cases h
    rfl
  · rw [if_neg hc] at h
    cases h

/-- A name aborts by the assertion of its register. -/
theorem isaRegStr2val_fault {s : List Char} {f : Fault} (h : m.isaRegStr2val s = .error f) :
    f = .assertion := by
  have hmap : ∀ idx, (m.gpr idx).map some = .error f → f = .assertion := by
    intro idx hidx
    cases hg : m.gpr idx with
    | error g => rw [hg] at hidx; cases hidx; exact gpr_fault hg
    | ok v => rw [hg] at hidx; cases hidx
  rw [Nemu.isaRegStr2val, Sdb.isaRegStr2val] at h
  split_ifs at h
  · cases hn : strtol s.tail 10 with
    | none => rw [hn] at h; cases h
    | some n =>
        rw [hn] at h
        simp only at h
        split_ifs at h
        exact hmap _ h
  · cases hi : (gprNames.take 32).findIdx? (· == s) with
    | none => rw [hi] at h; cases h
    | some idx => rw [hi] at h; exact hmap _ h

/-- Memory aborts outside of everything, or by the assertion of a device. -/
theorem paddrRead_fault {addr : Word} {f : Fault} (h : m.paddrRead addr = .error f) :
    f = .outOfBound ∨ f = .assertion := by
  rw [Nemu.paddrRead] at h
  split_ifs at h
  cases hmaps : m.maps with
  | none => rw [hmaps] at h; cases h; exact Or.inl rfl
  | some maps =>
      rw [hmaps] at h
      simp only [Nemu.mmioRead] at h
      split at h
      · split_ifs at h
        cases h
        exact Or.inr rfl
      · split at h
        · cases h
        · cases h
          exact Or.inr rfl

end Nemu

/-! ## Both debuggers -/

/-- **What ends a debugger** is what `paddr_read` and `check_reg_idx` find wrong: never an
access outside of the token array, nor an operator without a case, nor a call too many. -/
theorem expr_fault {d : Debugger} {f : Fault} (h : d.expr e = .error f) :
    f = .outOfBound ∨ f = .assertion := by
  cases d with
  | npc n => exact absurd (n.expr_returns e) (by rw [h]; exact not_returns_error f)
  | nemu m =>
      rw [Debugger.expr, expr_eq] at h
      cases hts : tokenize e with
      | none => rw [hts] at h; cases h
      | some ts =>
          rw [hts] at h
          rcases fault_of_evalReading (S := m.semantics) evalNumber_returns
            (evalBinary_returns m.wideShift) (reads_descend kind ts) h with
            ⟨str, hstr⟩ | ⟨type, v, htype, hun⟩
          · -- a register
            change evalRegister m.isaRegStr2val _ str = .error f at hstr
            rw [evalRegister] at hstr
            cases hreg : m.isaRegStr2val (str.drop 1) with
            | error g =>
                rw [hreg] at hstr
                cases hstr
                exact Or.inr (Nemu.isaRegStr2val_fault hreg)
            | ok w => rw [hreg] at hstr; cases w <;> cases hstr
          · -- a dereference
            have hderef : m.deref v = .error f := evalUnary_fault htype hun
            rw [Nemu.deref] at hderef
            cases hread : m.paddrRead v with
            | error g => rw [hread] at hderef; cases hderef; exact Nemu.paddrRead_fault hread
            | ok w => rw [hread] at hderef; cases hderef

/-- Both debuggers return from `expr` and from `syntax_check`. -/
def NeverAborts (n : Npc) (m : Nemu) (e : List Char) : Prop :=
  Returns ((Debugger.npc n).expr e) ∧ Returns ((Debugger.nemu m).expr e) ∧
    Returns (syntaxCheck e)

/-- **No debugger is ended by an expression** if and only if NEMU can read at every address
that it dereferences, and finds every register that it looks up. -/
theorem neverAborts_iff (n : Npc) (m : Nemu) (e : List Char) : NeverAborts n m e ↔
    ∀ ts, tokenize e = some ts → m.Reaches (descend kind ts) := by
  have hnemu : Returns ((Debugger.nemu m).expr e) ↔
      ∀ ts, tokenize e = some ts → m.Reaches (descend kind ts) := by
    rw [Debugger.expr, expr_eq]
    cases tokenize e with
    | none => simp
    | some ts =>
        have hr := reads_descend kind ts
        have h := returns_iff (S := m.semantics) evalNumber_returns
          (evalBinary_returns m.wideShift) hr
        rw [Nemu.undisturbed_iff hr] at h
        simp only [Option.elim_some, Option.some.injEq, forall_eq']
        exact h
  rw [← hnemu]
  constructor
  · rintro ⟨-, h, -⟩
    exact h
  · intro h
    exact ⟨n.expr_returns e, h, syntaxCheck_eq e ▸ returns_ok _⟩

/-- `*0` ends NEMU. -/
theorem derefZero_aborts : (Debugger.nemu zeroNemu).expr ['*', '0'] = .error .outOfBound ∧
    ¬ NeverAborts zeroNpc zeroNemu ['*', '0'] := by
  have hexpr : (Debugger.nemu zeroNemu).expr ['*', '0'] = .error .outOfBound := by rfl
  refine ⟨hexpr, ?_⟩
  rintro ⟨-, hreturns, -⟩
  rw [hexpr] at hreturns
  exact not_returns_error _ hreturns

end Sdb

end Bailuwan
