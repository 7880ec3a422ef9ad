/-
# Assembler programs on the reference model

An instruction of an assembler program is given by its mnemonic, its registers and its immediate
(`Asm`).  `Asm.word` is the instruction word, the pattern of the mnemonic with its open fields
filled in, and the reference model decodes it as the instruction it is made from
(`decodeExec_of_code`).  So a program that is in memory (`CodeAt`) is executed one `Asm` after the
other, and its total correctness is put together with the rules of `Leads`.
-/
import Mathlib.Order.CompletePartialOrder
import Bailuwan.Leads
import Bailuwan.OneInstruction

open StateTransition

namespace Bailuwan

/-! ## Words in memory -/

theorem toNat_byteOf (w : Word) (k : ℕ) : (byteOf w k).toNat = w.toNat / 2 ^ (8 * k) % 256 :=
  toNat_field w (8 * k) 8

/-- A word is given by its bytes. -/
theorem eq_of_byteOf {x y : Word} (h : ∀ k < 4, byteOf x k = byteOf y k) : x = y := by
  have hnat : ∀ k < 4, x.toNat / 2 ^ (8 * k) % 256 = y.toNat / 2 ^ (8 * k) % 256 := by
    intro k hk
    rw [← toNat_byteOf, ← toNat_byteOf, h k hk]
  have h0 := hnat 0 (by decide)
  have h1 := hnat 1 (by decide)
  have h2 := hnat 2 (by decide)
  have h3 := hnat 3 (by decide)
  apply BitVec.eq_of_toNat_eq
  omega

/-- Four bytes are a word. -/
theorem wordAt_of_bytes {b : Bytes} {a w : Word}
    (h : ∀ k < 4, b (a + BitVec.ofNat 32 k) = byteOf w k) : wordAt b a = w := by
  refine eq_of_byteOf fun k hk => ?_
  rw [byteOf_wordAt b a hk, h k hk]

/-! ## Instruction words -/

/-- The word of a pattern with the given values in the fields of question marks. -/
def BitPat.fill (p : BitPat) (funct7 : BitVec 7) (rs2 rs1 : BitVec 5) (funct3 : BitVec 3)
    (rd : BitVec 5) : Word :=
  p.funct7.getD funct7 ++ p.rs2.getD rs2 ++ p.rs1.getD rs1 ++ p.funct3.getD funct3 ++
    p.rd.getD rd ++ p.opcode ++ 0b11#2

namespace BitPat

variable (p : BitPat) (funct7 : BitVec 7) (rs2 rs1 : BitVec 5) (funct3 : BitVec 3) (rd : BitVec 5)

theorem toNat_fill : (p.fill funct7 rs2 rs1 funct3 rd).toNat =
    (p.funct7.getD funct7).toNat * 2 ^ 25 + (p.rs2.getD rs2).toNat * 2 ^ 20 +
      (p.rs1.getD rs1).toNat * 2 ^ 15 + (p.funct3.getD funct3).toNat * 2 ^ 12 +
        (p.rd.getD rd).toNat * 2 ^ 7 + p.opcode.toNat * 2 ^ 2 + 3 := by
  simp only [fill, toNat_append_eq, BitVec.toNat_ofNat]
  omega

@[simp] theorem funct7_fill :
    (p.fill funct7 rs2 rs1 funct3 rd).extractLsb' 25 7 = p.funct7.getD funct7 := by
  apply BitVec.eq_of_toNat_eq
  rw [toNat_field, toNat_fill]
  omega

@[simp] theorem rs2_fill :
    (p.fill funct7 rs2 rs1 funct3 rd).extractLsb' 20 5 = p.rs2.getD rs2 := by
  apply BitVec.eq_of_toNat_eq
  rw [toNat_field, toNat_fill]
  omega

@[simp] theorem rs1_fill :
    (p.fill funct7 rs2 rs1 funct3 rd).extractLsb' 15 5 = p.rs1.getD rs1 := by
  apply BitVec.eq_of_toNat_eq
  rw [toNat_field, toNat_fill]
  omega

@[simp] theorem funct3_fill :
    (p.fill funct7 rs2 rs1 funct3 rd).extractLsb' 12 3 = p.funct3.getD funct3 := by
  apply BitVec.eq_of_toNat_eq
  rw [toNat_field, toNat_fill]
  omega

@[simp] theorem rd_fill :
    (p.fill funct7 rs2 rs1 funct3 rd).extractLsb' 7 5 = p.rd.getD rd := by
  apply BitVec.eq_of_toNat_eq
  rw [toNat_field, toNat_fill]
  omega

@[simp] theorem opcode_fill :
    (p.fill funct7 rs2 rs1 funct3 rd).extractLsb' 2 5 = p.opcode := by
  apply BitVec.eq_of_toNat_eq
  rw [toNat_field, toNat_fill]
  omega

@[simp] theorem low_fill :
    (p.fill funct7 rs2 rs1 funct3 rd).extractLsb' 0 2 = 0b11#2 := by
  apply BitVec.eq_of_toNat_eq
  rw [toNat_field, toNat_fill, BitVec.toNat_ofNat]
  omega

theorem fieldMatches_getD {w : ℕ} (q : Option (BitVec w)) (x : BitVec w) :
    fieldMatches q (q.getD x) = true := by
  cases q <;> simp [fieldMatches]

theorem matches_fill : p.matches (p.fill funct7 rs2 rs1 funct3 rd) = true := by
  simp [BitPat.matches, fieldMatches_getD]

end BitPat

namespace Nemu

/-! ## Instructions -/

/-- The row of a mnemonic in the list of patterns. -/
def Inst.row (i : Inst) : BitPat × InstType :=
  match instPats.find? fun row => decide (row.2.1 = i) with
  | some row => (row.1, row.2.2)
  | none => ({ opcode := 0 }, .N)

theorem Inst.row_eq {i : Inst} {row : BitPat × Inst × InstType}
    (h : instPats.find? (fun row => decide (row.2.1 = i)) = some row) : i.row = (row.1, row.2.2) := by
  rw [Inst.row, h]

theorem Inst.row_mem {i : Inst} (h : i ≠ .inv) : (i.row.1, i, i.row.2) ∈ instPats := by
  have hsome : (instPats.find? fun row => decide (row.2.1 = i)).isSome = true := by
    cases i <;> first | rfl | exact absurd rfl h
  obtain ⟨row, hrow⟩ := Option.isSome_iff_exists.mp hsome
  have hi : row.2.1 = i := by simpa using List.find?_some hrow
  rw [row_eq hrow, ← hi]
  exact List.mem_of_find?_eq_some hrow

/-- An instruction with its registers and its immediate. -/
structure Asm where
  inst : Inst
  rd : BitVec 5 := 0
  rs1 : BitVec 5 := 0
  rs2 : BitVec 5 := 0
  imm : Word := 0
  csr : BitVec 12 := 0
  deriving DecidableEq, Repr

namespace Asm

variable (a : Asm)

/-- The instruction word. -/
def word : Word :=
  let p := a.inst.row.1
  let x := a.imm
  match a.inst.row.2 with
  | .R => p.fill 0 a.rs2 a.rs1 0 a.rd
  | .I => p.fill (x.extractLsb' 5 7) (x.extractLsb' 0 5) a.rs1 0 a.rd
  | .S => p.fill (x.extractLsb' 5 7) a.rs2 a.rs1 0 (x.extractLsb' 0 5)
  | .B => p.fill (x.extractLsb' 12 1 ++ x.extractLsb' 5 6) a.rs2 a.rs1 0
      (x.extractLsb' 1 4 ++ x.extractLsb' 11 1)
  | .U => p.fill (x.extractLsb' 25 7) (x.extractLsb' 20 5) (x.extractLsb' 15 5)
      (x.extractLsb' 12 3) a.rd
  | .J => p.fill (x.extractLsb' 20 1 ++ x.extractLsb' 5 6) (x.extractLsb' 1 4 ++ x.extractLsb' 11 1)
      (x.extractLsb' 15 5) (x.extractLsb' 12 3) a.rd
  | .CSR => p.fill (a.csr.extractLsb' 5 7) (a.csr.extractLsb' 0 5) a.rs1 0 a.rd
  | .CSRImm => p.fill (a.csr.extractLsb' 5 7) (a.csr.extractLsb' 0 5) (x.extractLsb' 0 5) 0 a.rd
  | .N => p.fill 0 0 0 0 0

end Asm

/-- The immediate in an instruction word. -/
def InstType.imm : InstType → Word → Word
  | .I => immI
  | .S => immS
  | .B => immB
  | .U => immU
  | .J => immJ
  | .CSRImm => immCSR
  | .R | .CSR | .N => fun _ => 0

namespace Asm

variable (a : Asm)

/-- The immediate has a place in the instruction word: it is the one that is decoded. -/
def Fits : Prop := a.inst ≠ .inv ∧ a.inst.row.2.imm a.word = a.imm

instance : DecidablePred Fits := fun _ => inferInstanceAs (Decidable (_ ∧ _))

/-- The operands in a state.  Where the type has no register the field is part of something else. -/
def operands (s : CPU) : Operands :=
  match a.inst.row.2 with
  | .R => { rd := a.rd, rs1 := a.rs1, src1 := s.gpr a.rs1, src2 := s.gpr a.rs2 }
  | .I => { rd := a.rd, rs1 := a.rs1, src1 := s.gpr a.rs1, imm := a.imm }
  | .S | .B =>
      { rd := IDU.rd a.word, rs1 := a.rs1, src1 := s.gpr a.rs1, src2 := s.gpr a.rs2, imm := a.imm }
  | .U | .J => { rd := a.rd, rs1 := IDU.rs1 a.word, imm := a.imm }
  | .CSR => { rd := a.rd, rs1 := a.rs1, src1 := s.gpr a.rs1, csr := a.csr }
  | .CSRImm => { rd := a.rd, rs1 := IDU.rs1 a.word, imm := a.imm, csr := a.csr }
  | .N => { rd := IDU.rd a.word, rs1 := IDU.rs1 a.word }

/-- The registers are question marks in all patterns that have operands. -/
theorem open_of_row : ∀ row ∈ instPats, row.2.2 ≠ .N →
    row.1.rs2 = none ∧ row.1.rs1 = none ∧ row.1.rd = none ∧
      (row.2.2 = .CSR ∨ row.2.2 = .CSRImm → row.1.funct7 = none) := by
  decide +kernel

variable {a}

/-! ### Decoding -/

theorem rd_word (hinv : a.inst ≠ .inv) (h : a.inst.row.2.writesRd = true) :
    IDU.rd a.word = a.rd := by
  have hopen := open_of_row _ (Inst.row_mem hinv)
  rw [word, IDU.rd]
  cases ht : a.inst.row.2 <;> simp_all [InstType.writesRd]

theorem rs1_word (hinv : a.inst ≠ .inv) (h : a.inst.row.2.readsRs1 = true) :
    IDU.rs1 a.word = a.rs1 := by
  have hopen := open_of_row _ (Inst.row_mem hinv)
  rw [word, IDU.rs1]
  cases ht : a.inst.row.2 <;> simp_all [InstType.readsRs1]

theorem rs2_word (hinv : a.inst ≠ .inv) (h : a.inst.row.2.readsRs2 = true) :
    IDU.rs2 a.word = a.rs2 := by
  have hopen := open_of_row _ (Inst.row_mem hinv)
  rw [word, IDU.rs2]
  cases ht : a.inst.row.2 <;> simp_all [InstType.readsRs2]

/-- The address of a CSR is the place of `funct7` and `rs2`. -/
theorem csrAddr_word (hinv : a.inst ≠ .inv) (h : a.inst.row.2 = .CSR ∨ a.inst.row.2 = .CSRImm) :
    IDU.csrAddr a.word = a.csr := by
  have hopen := open_of_row _ (Inst.row_mem hinv)
  have hfields : a.word.extractLsb' 25 7 = a.csr.extractLsb' 5 7 ∧
      a.word.extractLsb' 20 5 = a.csr.extractLsb' 0 5 := by
    rw [word]
    rcases h with ht | ht <;> simp_all
  have h7 := congrArg BitVec.toNat hfields.1
  have h2 := congrArg BitVec.toNat hfields.2
  apply BitVec.eq_of_toNat_eq
  rw [toNat_field, toNat_field] at h7 h2
  rw [IDU.csrAddr, toNat_field]
  omega

/-- **The operands that are decoded** are those of the instruction. -/
theorem decodeOperand_word (h : a.Fits) (s : CPU) :
    decodeOperand s a.word a.inst.row.2 = a.operands s := by
  obtain ⟨hinv, himm⟩ := h
  have hrd := @rd_word a hinv
  have hrs1 := @rs1_word a hinv
  have hrs2 := @rs2_word a hinv
  have hcsr := @csrAddr_word a hinv
  unfold decodeOperand operands
  rw [rd_eq, rs1_eq, rs2_eq, OneInst.csrAddr_eq]
  cases ht : a.inst.row.2 <;> simp_all [InstType.imm, InstType.writesRd, InstType.readsRs1,
    InstType.readsRs2]

/-! ### Immediates with a place -/

/-- An immediate of 12 bits. -/
theorem fits_I (hinv : a.inst ≠ .inv) (hrow : a.inst.row.2 = .I)
    (hopen : a.inst.row.1.funct7 = none) (hx : SEXT a.imm 12 = a.imm) : a.Fits := by
  refine ⟨hinv, ?_⟩
  have hregs := open_of_row _ (Inst.row_mem hinv)
  rw [hrow] at hregs
  have h2 : a.inst.row.1.rs2 = none := (hregs (by decide)).1
  have h7 : a.word.extractLsb' 25 7 = a.imm.extractLsb' 5 7 := by
    simp only [word, hrow, BitPat.funct7_fill, hopen, Option.getD_none]
  have h5 : a.word.extractLsb' 20 5 = a.imm.extractLsb' 0 5 := by
    simp only [word, hrow, BitPat.rs2_fill, h2, Option.getD_none]
  have hlow : a.word.extractLsb' 20 12 = a.imm.setWidth 12 := by
    replace h7 := congrArg BitVec.toNat h7
    replace h5 := congrArg BitVec.toNat h5
    rw [toNat_field, toNat_field] at h7 h5
    apply BitVec.eq_of_toNat_eq
    rw [toNat_field, BitVec.toNat_setWidth]
    omega
  rw [hrow, InstType.imm, immI_eq, IDU.immI, hlow]
  exact hx

/-- An immediate without the low 12 bits. -/
theorem fits_U (hinv : a.inst ≠ .inv) (hrow : a.inst.row.2 = .U)
    (hopen : a.inst.row.1.funct7 = none ∧ a.inst.row.1.funct3 = none)
    (hx : a.imm.toNat % 2 ^ 12 = 0) : a.Fits := by
  refine ⟨hinv, ?_⟩
  have hregs := open_of_row _ (Inst.row_mem hinv)
  rw [hrow] at hregs
  have h2 : a.inst.row.1.rs2 = none := (hregs (by decide)).1
  have h1 : a.inst.row.1.rs1 = none := (hregs (by decide)).2.1
  have hfield : a.word.toNat / 2 ^ 12 % 2 ^ 20 = a.imm.toNat / 2 ^ 12 := by
    simp only [word, hrow, BitPat.toNat_fill, h2, h1, hopen, Option.getD_none, toNat_field]
    have := a.imm.isLt
    have := (a.inst.row.1.rd.getD a.rd).isLt
    have := (a.inst.row.1.opcode).isLt
    omega
  rw [hrow, InstType.imm, immU_eq, IDU.immU]
  apply BitVec.eq_of_toNat_eq
  rw [toNat_append_eq, toNat_field, hfield, show (0 : BitVec 12).toNat = 0 from rfl]
  omega

/-! ### Execution -/

/-- The state after the instruction; it stays where the body panics. -/
def exec (a : Asm) (s : CPU) : CPU := (execBody s (a.operands s) a.inst).elim s s.apply

/-- The instruction is one after which the program goes on. -/
def Continues (a : Asm) : Prop := a.Fits ∧ a.inst ≠ .ebreak ∧ a.inst ≠ .fence

instance : DecidablePred Continues := fun _ => inferInstanceAs (Decidable (_ ∧ _))

end Asm

/-- The next state, as long as the program goes on. -/
def CPU.step (s : CPU) : Option CPU :=
  (decodeExec s).bind fun e => if e.stop = none then some (s.apply e) else none

/-- The program is in memory. -/
def CodeAt (mem : Bytes) (base : Word) (code : List Asm) : Prop :=
  ∀ k a, code[k]? = some a → wordAt mem (base + BitVec.ofNat 32 (4 * k)) = a.word

/-- Only the bytes of the program count. -/
theorem CodeAt.congr {m m' : Bytes} {base : Word} {code : List Asm} (h : CodeAt m base code)
    (heq : ∀ a, (a - base).toNat < 4 * code.length → m' a = m a) : CodeAt m' base code := by
  intro k a ha
  have hk : k < code.length := (List.getElem?_eq_some_iff.mp ha).1
  rw [← h k a ha]
  refine wordAt_of_bytes fun j hj => ?_
  rw [byteOf_wordAt m _ hj]
  refine heq _ ?_
  rw [BitVec.add_assoc, BitVec.add_comm, BitVec.add_sub_cancel, ← BitVec.ofNat_add,
    BitVec.toNat_ofNat]
  exact lt_of_le_of_lt (Nat.mod_le _ _) (by omega)

theorem execBody_goesOn {s : CPU} {o : Operands} {i : Inst} (h1 : i ≠ .ebreak) (h2 : i ≠ .fence)
    (h3 : i ≠ .inv) : ∃ e, execBody s o i = some e ∧ e.stop = none := by
  cases i <;> first | exact ⟨_, rfl, rfl⟩ | contradiction

/-- An instruction in memory is decoded. -/
theorem decodeExec_of_word {s : CPU} {a : Asm} (h : s.inst = a.word) (hfits : a.Fits) :
    decodeExec s = execBody s (a.operands s) a.inst := by
  have hdecode : decode s.inst = (a.inst, a.inst.row.2) := by
    have hmem := Inst.row_mem hfits.1
    refine OneInst.decode_of_mem hmem ?_
    rw [h, Asm.word]
    cases a.inst.row.2 <;> exact BitPat.matches_fill ..
  rw [decodeExec, hdecode, h, Asm.decodeOperand_word hfits]

/-- **An instruction in memory** is executed. -/
theorem step_of_word {s : CPU} {a : Asm} (h : s.inst = a.word) (ha : a.Continues) :
    s.step = some (a.exec s) := by
  obtain ⟨hfits, h1, h2⟩ := ha
  obtain ⟨e, he, hstop⟩ := execBody_goesOn (s := s) (o := a.operands s) h1 h2 hfits.1
  rw [CPU.step, decodeExec_of_word h hfits, he, Asm.exec, he]
  simp [hstop]

/-! ## Stores -/

/-- Some bytes of memory; they may go on at zero. -/
def span (base : Word) (n : ℕ) : Set Word := {a | (a - base).toNat < n}

theorem mem_span {base a : Word} {n : ℕ} : a ∈ span base n ↔ (a - base).toNat < n := Iff.rfl

theorem add_mem_span {base d : Word} {n : ℕ} : base + d ∈ span base n ↔ d.toNat < n := by
  rw [mem_span, BitVec.add_comm, BitVec.add_sub_cancel]

theorem disjoint_span {a b : Word} {m n : ℕ} (h : m ≤ (b - a).toNat) (h' : n ≤ (a - b).toNat) :
    Disjoint (span a m) (span b n) := by
  refine Set.disjoint_left.mpr fun x ha hb => ?_
  rw [mem_span, BitVec.toNat_sub] at ha hb
  rw [BitVec.toNat_sub] at h h'
  have := x.isLt
  have := a.isLt
  have := b.isLt
  omega

theorem span_subset {a b : Word} {m n : ℕ} (h : (a - b).toNat + m ≤ n) :
    span a m ⊆ span b n := by
  intro x hx
  rw [mem_span, BitVec.toNat_sub] at hx ⊢
  rw [BitVec.toNat_sub] at h
  have := x.isLt
  have := a.isLt
  have := b.isLt
  omega

theorem write_of_notMem {m : Bytes} {addr a data : Word} {len : ℕ} (h : a ∉ span addr len) :
    write m addr len data a = m a := if_neg h

@[simp] theorem read_four (m : Bytes) (addr : Word) : read m addr 4 = wordAt m addr := rfl

theorem wordAt_write_self (m : Bytes) (addr data : Word) :
    wordAt (write m addr 4 data) addr = data := by
  refine wordAt_of_bytes fun k hk => ?_
  have hpos : (addr + BitVec.ofNat 32 k - addr).toNat = k := by
    rw [BitVec.add_comm, BitVec.add_sub_cancel, BitVec.toNat_ofNat, Nat.mod_eq_of_lt (by omega)]
  rw [write, hpos, if_pos hk]

/-- A word is left alone where none of its bytes are changed. -/
theorem wordAt_congr {m m' : Bytes} {a : Word} (h : ∀ x ∈ span a 4, m' x = m x) :
    wordAt m' a = wordAt m a := by
  refine wordAt_of_bytes fun k hk => ?_
  rw [byteOf_wordAt m a hk]
  refine h _ ?_
  rw [mem_span, BitVec.add_comm, BitVec.add_sub_cancel, BitVec.toNat_ofNat,
    Nat.mod_eq_of_lt (by omega)]
  exact hk

/-! ## What the instructions do -/

namespace CPU

variable (s : CPU)

/-- A register is assigned to and the program goes on with the next instruction. -/
def assign (rd : BitVec 5) (v : Word) : CPU :=
  { s with gpr := Function.update (Function.update s.gpr rd v) 0 0, pc := s.pc + 4 }

/-- The program goes on somewhere else. -/
def goto (pc : Word) : CPU := { s with gpr := Function.update s.gpr 0 0, pc := pc }

/-- The program goes on somewhere else and leaves the address of the next instruction. -/
def link (rd : BitVec 5) (pc : Word) : CPU :=
  { s with gpr := Function.update (Function.update s.gpr rd (s.pc + 4)) 0 0, pc := pc }

/-- Some bytes are stored and the program goes on with the next instruction. -/
def put (addr : Word) (len : ℕ) (data : Word) : CPU :=
  { s with
    gpr := Function.update s.gpr 0 0
    pc := s.pc + 4
    mem := write s.mem addr len data }

/-- A CSR is written and the program goes on with the next instruction. -/
def setCsr (csr : BitVec 12) (v : Word) : CPU :=
  { s with
    gpr := Function.update s.gpr 0 0
    pc := s.pc + 4
    csr := Function.update s.csr csr v }

/-- `isa_raise_intr` at an environment call. -/
def trap : CPU :=
  { s.goto (s.csr CSR.mtvec) with
    csr := (raiseIntr (s.privLevel.setWidth 32 + 8) s.pc).foldl
      (fun f w => Function.update f w.1 w.2) s.csr }

variable {s} {rd r : BitVec 5} {v pc addr data : Word} {len : ℕ} {csr : BitVec 12}

theorem gpr_assign : (s.assign rd v).gpr r = if r = 0 then 0 else if r = rd then v else s.gpr r := by
  simp only [assign, Function.update_apply]

theorem gpr_goto : (s.goto pc).gpr r = if r = 0 then 0 else s.gpr r := by
  simp only [goto, Function.update_apply]

theorem gpr_link :
    (s.link rd pc).gpr r = if r = 0 then 0 else if r = rd then s.pc + 4 else s.gpr r := by
  simp only [link, Function.update_apply]

theorem gpr_put : (s.put addr len data).gpr r = if r = 0 then 0 else s.gpr r := by
  simp only [put, Function.update_apply]

theorem gpr_setCsr : (s.setCsr csr v).gpr r = if r = 0 then 0 else s.gpr r := by
  simp only [setCsr, Function.update_apply]

@[simp] theorem pc_assign : (s.assign rd v).pc = s.pc + 4 := rfl
@[simp] theorem pc_goto : (s.goto pc).pc = pc := rfl
@[simp] theorem pc_link : (s.link rd pc).pc = pc := rfl
@[simp] theorem pc_put : (s.put addr len data).pc = s.pc + 4 := rfl
@[simp] theorem mem_assign : (s.assign rd v).mem = s.mem := rfl
@[simp] theorem mem_goto : (s.goto pc).mem = s.mem := rfl
@[simp] theorem mem_link : (s.link rd pc).mem = s.mem := rfl
@[simp] theorem mem_put : (s.put addr len data).mem = write s.mem addr len data := rfl
@[simp] theorem csr_assign : (s.assign rd v).csr = s.csr := rfl
@[simp] theorem csr_goto : (s.goto pc).csr = s.csr := rfl
@[simp] theorem csr_link : (s.link rd pc).csr = s.csr := rfl
@[simp] theorem csr_put : (s.put addr len data).csr = s.csr := rfl
@[simp] theorem pc_setCsr : (s.setCsr csr v).pc = s.pc + 4 := rfl
@[simp] theorem mem_setCsr : (s.setCsr csr v).mem = s.mem := rfl

end CPU

/-! ### Mnemonics, with the operands in the order of the assembler -/

namespace Asm

variable (rd rs1 rs2 : BitVec 5) (imm : Word)

def add : Asm := { inst := .add, rd, rs1, rs2 }
def sub : Asm := { inst := .sub, rd, rs1, rs2 }
def or : Asm := { inst := .or, rd, rs1, rs2 }
def addi : Asm := { inst := .addi, rd, rs1, imm }
def andi : Asm := { inst := .andi, rd, rs1, imm }
def slli : Asm := { inst := .slli, rd, rs1, imm }
def srli : Asm := { inst := .srli, rd, rs1, imm }
def lui : Asm := { inst := .lui, rd, imm }
def auipc : Asm := { inst := .auipc, rd, imm }
def lw (rd : BitVec 5) (imm : Word) (rs1 : BitVec 5) : Asm := { inst := .lw, rd, rs1, imm }
def lbu (rd : BitVec 5) (imm : Word) (rs1 : BitVec 5) : Asm := { inst := .lbu, rd, rs1, imm }
def sw (rs2 : BitVec 5) (imm : Word) (rs1 : BitVec 5) : Asm := { inst := .sw, rs1, rs2, imm }
def sb (rs2 : BitVec 5) (imm : Word) (rs1 : BitVec 5) : Asm := { inst := .sb, rs1, rs2, imm }
def jal : Asm := { inst := .jal, rd, imm }
def jalr (rd : BitVec 5) (imm : Word) (rs1 : BitVec 5) : Asm := { inst := .jalr, rd, rs1, imm }
def beq : Asm := { inst := .beq, rs1, rs2, imm }
def bne : Asm := { inst := .bne, rs1, rs2, imm }
def blt : Asm := { inst := .blt, rs1, rs2, imm }
def bge : Asm := { inst := .bge, rs1, rs2, imm }
def bltu : Asm := { inst := .bltu, rs1, rs2, imm }
def bgeu : Asm := { inst := .bgeu, rs1, rs2, imm }

def mret : Asm := { inst := .mret }
def ecall : Asm := { inst := .ecall }

variable (csr : BitVec 12)

def csrr : Asm := { inst := .csrrs, rd, csr }
def csrw (csr : BitVec 12) (rs1 : BitVec 5) : Asm := { inst := .csrrw, rs1, csr }

variable (s : CPU)

@[simp] theorem exec_add : (add rd rs1 rs2).exec s = s.assign rd (s.gpr rs1 + s.gpr rs2) := rfl
@[simp] theorem exec_sub : (sub rd rs1 rs2).exec s = s.assign rd (s.gpr rs1 - s.gpr rs2) := rfl
@[simp] theorem exec_or : (or rd rs1 rs2).exec s = s.assign rd (s.gpr rs1 ||| s.gpr rs2) := rfl
@[simp] theorem exec_addi : (addi rd rs1 imm).exec s = s.assign rd (s.gpr rs1 + imm) := rfl
@[simp] theorem exec_andi : (andi rd rs1 imm).exec s = s.assign rd (s.gpr rs1 &&& imm) := rfl
@[simp] theorem exec_slli : (slli rd rs1 imm).exec s = s.assign rd (s.gpr rs1 <<< shamt imm) := rfl
@[simp] theorem exec_srli : (srli rd rs1 imm).exec s = s.assign rd (s.gpr rs1 >>> shamt imm) := rfl
@[simp] theorem exec_lui : (lui rd imm).exec s = s.assign rd imm := rfl
@[simp] theorem exec_auipc : (auipc rd imm).exec s = s.assign rd (s.pc + imm) := rfl

@[simp] theorem exec_lw :
    (lw rd imm rs1).exec s = s.assign rd (read s.mem (s.gpr rs1 + imm) 4) := rfl

@[simp] theorem exec_lbu :
    (lbu rd imm rs1).exec s = s.assign rd (read s.mem (s.gpr rs1 + imm) 1) := rfl

@[simp] theorem exec_sw : (sw rs2 imm rs1).exec s = s.put (s.gpr rs1 + imm) 4 (s.gpr rs2) := rfl
@[simp] theorem exec_sb : (sb rs2 imm rs1).exec s = s.put (s.gpr rs1 + imm) 1 (s.gpr rs2) := rfl
@[simp] theorem exec_jal : (jal rd imm).exec s = s.link rd (s.pc + imm) := rfl

@[simp] theorem exec_jalr :
    (jalr rd imm rs1).exec s = s.link rd ((s.gpr rs1 + imm) &&& ~~~ 1) := rfl

@[simp] theorem exec_beq : (beq rs1 rs2 imm).exec s =
    s.goto (if s.gpr rs1 = s.gpr rs2 then s.pc + imm else s.pc + 4) := by
  have h : (beq rs1 rs2 imm).exec s =
    s.goto (if decide (s.gpr rs1 = s.gpr rs2) then s.pc + imm else s.pc + 4) := rfl
  simpa only [decide_eq_true_eq] using h

@[simp] theorem exec_bne : (bne rs1 rs2 imm).exec s =
    s.goto (if s.gpr rs1 = s.gpr rs2 then s.pc + 4 else s.pc + imm) := by
  have h : (bne rs1 rs2 imm).exec s =
    s.goto (if decide (s.gpr rs1 ≠ s.gpr rs2) then s.pc + imm else s.pc + 4) := rfl
  simpa only [decide_eq_true_eq, ne_eq, ite_not] using h

@[simp] theorem exec_blt : (blt rs1 rs2 imm).exec s =
    s.goto (if (s.gpr rs1).slt (s.gpr rs2) then s.pc + imm else s.pc + 4) := rfl

@[simp] theorem exec_bge : (bge rs1 rs2 imm).exec s =
    s.goto (if !(s.gpr rs1).slt (s.gpr rs2) then s.pc + imm else s.pc + 4) := rfl

@[simp] theorem exec_bltu : (bltu rs1 rs2 imm).exec s =
    s.goto (if (s.gpr rs1).ult (s.gpr rs2) then s.pc + imm else s.pc + 4) := rfl

@[simp] theorem exec_bgeu : (bgeu rs1 rs2 imm).exec s =
    s.goto (if !(s.gpr rs1).ult (s.gpr rs2) then s.pc + imm else s.pc + 4) := rfl

@[simp] theorem exec_mret : mret.exec s = s.goto (s.csr CSR.mepc) := rfl
@[simp] theorem exec_ecall : ecall.exec s = s.trap := rfl

@[simp] theorem exec_csrw :
    (csrw csr rs1).exec s = s.setCsr csr (s.gpr rs1) :=
  congrArg (fun g => { s.setCsr csr (s.gpr rs1) with gpr := g }) (Function.update_idem _ _ s.gpr)

/-- A read writes the CSR back. -/
theorem exec_csrr (h0 : s.gpr 0 = 0) : (csrr rd csr).exec s = s.assign rd (s.csr csr) := by
  have hsame : Function.update s.csr csr (s.csr csr ||| s.gpr 0) = s.csr := by
    rw [h0, BitVec.ofNat_eq_ofNat, BitVec.or_zero, Function.update_eq_self]
  exact congrArg (fun c => { s.assign rd (s.csr csr) with csr := c }) hsame

/-! ### Pseudo-instructions -/

def mv : Asm := addi rd rs1 0
def li : Asm := addi rd 0 imm
def neg : Asm := sub rd 0 rs2
def j : Asm := jal 0 imm
def jr : Asm := jalr 0 0 rs1
def beqz : Asm := beq rs1 0 imm
def bnez : Asm := bne rs1 0 imm
def bltz : Asm := blt rs1 0 imm
def blez : Asm := bge 0 rs1 imm
def bgtz : Asm := blt 0 rs1 imm

end Asm

/-! ## Programs -/

/-- A line of a program: an instruction, or one that jumps to another line. -/
inductive Line
  | inst (a : Asm)
  | to (f : Word → Asm) (label : ℕ)

/-- The address of a line. -/
def lineAt (base : Word) (k : ℕ) : Word := base + BitVec.ofNat 32 (4 * k)

/-- The distance from a line to another. -/
def offset (k label : ℕ) : Word := BitVec.ofInt 32 (4 * ((label : ℤ) - k))

/-- The instruction of a line. -/
def Line.asm (k : ℕ) : Line → Asm
  | .inst a => a
  | .to f label => f (offset k label)

/-- The program, each line with its distances to the labels. -/
def assemble (lines : List Line) : List Asm := lines.mapIdx Line.asm

@[simp] theorem lineAt_zero (base : Word) : lineAt base 0 = base := BitVec.add_zero base

theorem lineAt_add_four (base : Word) (k : ℕ) : lineAt base k + 4#32 = lineAt base (k + 1) := by
  rw [lineAt, lineAt, Nat.mul_succ, BitVec.ofNat_add, BitVec.add_assoc]

theorem lineAt_four_add (base : Word) (k : ℕ) : lineAt (base + 4#32) k = lineAt base (k + 1) := by
  rw [← lineAt_add_four, lineAt, lineAt, BitVec.add_assoc, BitVec.add_comm 4#32, ← BitVec.add_assoc]

theorem lineAt_add_offset (base : Word) (k label : ℕ) :
    lineAt base k + offset k label = lineAt base label := by
  have hadd : BitVec.ofNat 32 (4 * k) + offset k label = BitVec.ofNat 32 (4 * label) := by
    rw [offset, ← BitVec.ofInt_natCast, ← BitVec.ofInt_natCast, ← BitVec.ofInt_add]
    congr 1
    omega
  rw [lineAt, BitVec.add_assoc, hadd, lineAt]

/-- A memory with a program in it. -/
def image (base : Word) (code : List Asm) : Bytes := fun a =>
  byteOf ((code[(a - base).toNat / 4]?).elim 0 Asm.word) ((a - base).toNat % 4)

theorem codeAt_image (base : Word) (code : List Asm) (hlen : 4 * code.length ≤ 2 ^ 32) :
    CodeAt (image base code) base code := by
  intro k a ha
  have hk : k < code.length := (List.getElem?_eq_some_iff.mp ha).1
  refine wordAt_of_bytes fun j hj => ?_
  have hpos : (base + BitVec.ofNat 32 (4 * k) + BitVec.ofNat 32 j - base).toNat = 4 * k + j := by
    rw [BitVec.add_assoc, BitVec.add_comm, BitVec.add_sub_cancel, ← BitVec.ofNat_add,
      BitVec.toNat_ofNat, Nat.mod_eq_of_lt (by omega)]
  rw [image, hpos, show (4 * k + j) / 4 = k by omega, show (4 * k + j) % 4 = j by omega, ha,
    Option.elim_some]

/-- A target of which bit 0 is clear. -/
theorem and_not_one {x : Word} (h : x.toNat % 2 = 0) : x &&& ~~~ 1 = x := by
  have hclear := clear_bit_zero x
  rw [show (~~~ 1 : Word) = 0xfffffffe#32 from rfl, hclear]
  apply BitVec.eq_of_toNat_eq
  rw [toNat_append_eq, toNat_field, BitVec.toNat_ofNat]
  have := x.isLt
  omega

/-- **The next instruction of a program.** -/
theorem CodeAt.next {s : CPU} {base : Word} {code : List Asm} {k : ℕ} {a : Asm} {Q : CPU → Prop}
    (hc : CodeAt s.mem base code) (hpc : s.pc = lineAt base k) (ha : code[k]? = some a)
    (hgo : a.Continues) (h : Leads CPU.step (a.exec s) Q) :
    Leads CPU.step s Q := by
  refine Leads.step (step_of_word ?_ hgo) h
  rw [CPU.inst, hpc]
  exact hc k a ha

/-! ## Straight-line code -/

/-- The state after some instructions. -/
def execAll (as : List Asm) (s : CPU) : CPU := as.foldl (fun s a => a.exec s) s

@[simp] theorem execAll_nil (s : CPU) : execAll [] s = s := rfl

@[simp] theorem execAll_cons (a : Asm) (as : List Asm) (s : CPU) :
    execAll (a :: as) s = execAll as (a.exec s) := rfl

theorem execAll_append (as bs : List Asm) (s : CPU) :
    execAll (as ++ bs) s = execAll bs (execAll as s) := List.foldl_append

/-- The program goes on with the next instruction. -/
def Asm.Straight (a : Asm) : Prop := a.Continues ∧ ∀ s, (a.exec s).pc = s.pc + 4

/-- The instructions that go on somewhere else. -/
def jumps : List Inst := [.jal, .jalr, .beq, .bne, .blt, .bge, .bltu, .bgeu, .ecall, .mret, .fence]

theorem Asm.straight_of_notMem {a : Asm} (hgo : a.Continues) (h : a.inst ∉ jumps) : a.Straight := by
  refine ⟨hgo, fun s => ?_⟩
  rw [exec]
  generalize a.inst = i at h
  cases i <;> first | rfl | exact absurd (by decide) h

/-- A machine that executes a program as the reference model does; elsewhere it may do something
else. -/
def Executes (next : CPU → Option CPU) (base : Word) (code : List Asm) : Prop :=
  ∀ s k, k < code.length → s.pc = lineAt base k → next s = s.step

/-- **A piece of straight-line code**, under an invariant that keeps the program in memory. -/
theorem CodeAt.block {next : CPU → Option CPU} {base : Word} {code as : List Asm} {k : ℕ}
    {s : CPU} {Q : CPU → Prop} (Inv : CPU → Prop) (hnext : Executes next base code)
    (hcode : ∀ s, Inv s → CodeAt s.mem base code) (has : as <+: code.drop k)
    (hstraight : ∀ a ∈ as, a.Straight) (hinv : ∀ a ∈ as, ∀ s, Inv s → Inv (a.exec s))
    (hpc : s.pc = lineAt base k) (hs : Inv s)
    (h : (execAll as s).pc = lineAt base (k + as.length) → Inv (execAll as s) →
      Leads next (execAll as s) Q) : Leads next s Q := by
  induction as generalizing s k with
  | nil => exact h hpc hs
  | cons a as ih =>
      obtain ⟨hgo, hadd⟩ := hstraight a List.mem_cons_self
      obtain ⟨rest, hrest⟩ := has
      have ha : code[k]? = some a := by
        rw [← List.head?_drop, ← hrest, List.cons_append, List.head?_cons]
      have hk : k < code.length := (List.getElem?_eq_some_iff.mp ha).1
      have htail : as <+: code.drop (k + 1) := by
        rw [← List.tail_drop, ← hrest, List.cons_append, List.tail_cons]
        exact List.prefix_append as rest
      refine Leads.step ((hnext s k hk hpc).trans (step_of_word ?_ hgo)) ?_
      · rw [CPU.inst, hpc]
        exact hcode s hs k a ha
      · refine ih htail (fun b hb => hstraight b (List.mem_cons_of_mem a hb))
          (fun b hb => hinv b (List.mem_cons_of_mem a hb)) ?_ (hinv a List.mem_cons_self s hs) ?_
        · rw [hadd, hpc]
          exact lineAt_add_four base k
        · intro hend
          refine h ?_
          rw [execAll_cons, hend, List.length_cons]
          congr 1
          omega

open Asm

/-- The pieces of a piece of a program. -/
theorem prefix_pieces {code as bs : List Asm} {k : ℕ} (h : as ++ bs <+: code.drop k) :
    as <+: code.drop k ∧ bs <+: code.drop (k + as.length) := by
  obtain ⟨rest, hrest⟩ := h
  rw [List.append_assoc] at hrest
  refine ⟨⟨bs ++ rest, hrest⟩, rest, ?_⟩
  rw [← List.drop_drop, ← hrest, List.drop_left]

/-! ## Far addresses -/

/-- `%pcrel_hi` and `%hi`. -/
def hi20 (d : Word) : Word := (d + 0x800) &&& 0xfffff000

/-- `%pcrel_lo` and `%lo`. -/
def lo12 (d : Word) : Word := SEXT d 12

theorem toNat_hi20 (d : Word) : (hi20 d).toNat = (d.toNat + 0x800) % 2 ^ 32 / 2 ^ 12 * 2 ^ 12 := by
  have h := toNat_and_not_low (d + 0x800) 12
  rw [BitVec.toNat_add] at h
  exact h

theorem toNat_lo12 (d : Word) : (lo12 d).toNat =
    d.toNat % 2 ^ 12 + if 2 ^ 11 ≤ d.toNat % 2 ^ 12 then 2 ^ 32 - 2 ^ 12 else 0 := by
  have hd := d.isLt
  rw [lo12, SEXT, BitVec.toNat_signExtend, BitVec.msb_eq_decide, BitVec.toNat_setWidth,
    BitVec.toNat_setWidth, Nat.mod_eq_of_lt (show d.toNat % 2 ^ 12 < 2 ^ 32 by omega)]
  simp only [decide_eq_true_eq]

/-- **The two parts of a distance.** -/
theorem hi20_add_lo12 (d : Word) : hi20 d + lo12 d = d := by
  have hd := d.isLt
  apply BitVec.eq_of_toNat_eq
  rw [BitVec.toNat_add, toNat_hi20, toNat_lo12]
  split_ifs <;> omega

theorem SEXT_lo12 (d : Word) : SEXT (lo12 d) 12 = lo12 d := by
  have hlow : (lo12 d).setWidth 12 = d.setWidth 12 := by
    apply BitVec.eq_of_toNat_eq
    rw [BitVec.toNat_setWidth, BitVec.toNat_setWidth, toNat_lo12]
    split_ifs <;> omega
  rw [SEXT, hlow]
  rfl

/-- **A far call**: the address of the function is made in the register that is linked. -/
theorem CodeAt.call {next : CPU → Option CPU} {base d : Word} {code : List Asm} {k : ℕ}
    {r : BitVec 5} {s : CPU} {Q : CPU → Prop} (hnext : Executes next base code)
    (hc : CodeAt s.mem base code) (hpc : s.pc = lineAt base k)
    (h1 : code[k]? = some (auipc r (hi20 d))) (h2 : code[k + 1]? = some (jalr r (lo12 d) r))
    (hr : r ≠ 0)
    (h : Leads next ((s.assign r (s.pc + hi20 d)).link r ((s.pc + d) &&& ~~~ 1)) Q) :
    Leads next s Q := by
  have hgo1 : (auipc r (hi20 d)).Continues := by
    refine ⟨fits_U (by simp [auipc]) rfl ⟨rfl, rfl⟩ ?_, by simp [auipc], by simp [auipc]⟩
    rw [auipc, toNat_hi20]
    omega
  have hgo2 : (jalr r (lo12 d) r).Continues :=
    ⟨fits_I (by simp [jalr]) rfl rfl (SEXT_lo12 d), by simp [jalr], by simp [jalr]⟩
  have hlt1 := (List.getElem?_eq_some_iff.mp h1).1
  have hlt2 := (List.getElem?_eq_some_iff.mp h2).1
  refine Leads.step ((hnext s k hlt1 hpc).trans (step_of_word ?_ hgo1)) ?_
  · rw [CPU.inst, hpc]
    exact hc k _ h1
  have hpc' : (s.assign r (s.pc + hi20 d)).pc = lineAt base (k + 1) := by
    rw [CPU.pc_assign, hpc]
    exact lineAt_add_four base k
  rw [exec_auipc]
  refine Leads.step ((hnext _ (k + 1) hlt2 hpc').trans (step_of_word ?_ hgo2)) ?_
  · rw [CPU.inst, hpc']
    exact hc (k + 1) _ h2
  · rw [exec_jalr, CPU.gpr_assign, if_neg hr, if_pos rfl, BitVec.add_assoc, hi20_add_lo12]
    exact h

/-- `la`, with the address of the first of its instructions. -/
def la (pc : Word) (r : BitVec 5) (symbol : Word) : List Asm :=
  [auipc r (hi20 (symbol - pc)), addi r r (lo12 (symbol - pc))]

theorem straight_la {pc symbol : Word} {r : BitVec 5} : ∀ a ∈ la pc r symbol, a.Straight := by
  intro a ha
  simp only [la, List.mem_cons, List.not_mem_nil, or_false] at ha
  rcases ha with rfl | rfl
  · refine straight_of_notMem ⟨fits_U (by simp [auipc]) rfl ⟨rfl, rfl⟩ ?_, ?_, ?_⟩ ?_
    · rw [auipc, toNat_hi20]
      omega
    all_goals simp [auipc, jumps]
  · refine straight_of_notMem ⟨fits_I (by simp [addi]) rfl rfl (SEXT_lo12 _), ?_, ?_⟩ ?_ <;>
      simp [addi, jumps]

/-- The register has the address. -/
theorem gpr_la {s : CPU} {r : BitVec 5} (symbol : Word) (hr : r ≠ 0) :
    (execAll (la s.pc r symbol) s).gpr r = symbol := by
  rw [la, execAll_cons, execAll_cons, execAll_nil, exec_addi, exec_auipc, CPU.gpr_assign, if_neg hr,
    if_pos rfl, CPU.gpr_assign, if_neg hr, if_pos rfl, BitVec.add_assoc, hi20_add_lo12,
    BitVec.add_comm, BitVec.sub_add_cancel]

theorem gpr_la_of_ne {s : CPU} {pc symbol : Word} {r q : BitVec 5} (hq : q ≠ r) :
    (execAll (la pc r symbol) s).gpr q = if q = 0 then 0 else s.gpr q := by
  rw [la, execAll_cons, execAll_cons, execAll_nil, exec_addi, exec_auipc, CPU.gpr_assign,
    if_neg hq, CPU.gpr_assign, if_neg hq]
  split_ifs <;> rfl

end Nemu

end Bailuwan
