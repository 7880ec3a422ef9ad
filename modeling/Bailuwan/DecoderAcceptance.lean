/-
# What the decoder accepts

The patterns of the decode table are compared with the listing of `Rv32e`.  A pattern is
a mask and a value (`BitPat.matches_iff`), so that every row of the table is one
mnemonic's, and every mnemonic but `fence` has a row (`lookup_of_encodes`).

The decoder accepts exactly the listed instructions other than `fence`, whatever
registers they name, so that its verdict is that of the listing for all other words
that use `x0` to `x15` only (`acceptsAsListed_iff`).
-/
import Mathlib.Tactic.IntervalCases
import Bailuwan.IDU
import Bailuwan.Rv32e

namespace Bailuwan

open Rv32e

/-! ## Patterns as masks -/

/-- All bits of a field that is given. -/
def fieldMask {w : ℕ} (p : Option (BitVec w)) : BitVec w :=
  match p with
  | none => 0
  | some _ => BitVec.allOnes w

/-- The value of a field, 0 where it is not given. -/
def fieldValue {w : ℕ} (p : Option (BitVec w)) : BitVec w := p.getD 0

/-- A field of a pattern is a mask and a value. -/
theorem fieldMatches_iff {w : ℕ} (p : Option (BitVec w)) (x : BitVec w) :
    fieldMatches p x = true ↔ x &&& fieldMask p = fieldValue p := by
  cases p <;> simp [fieldMatches, fieldMask, fieldValue]

/-- Concatenations are equal field by field. -/
theorem append_inj {v w : ℕ} {a c : BitVec v} {b d : BitVec w} :
    a ++ b = c ++ d ↔ a = c ∧ b = d := by
  refine ⟨fun h => ⟨?_, ?_⟩, fun h => by rw [h.1, h.2]⟩
  · rw [← BitVec.extractLsb'_append_eq_left (a := a) (b := b), h,
      BitVec.extractLsb'_append_eq_left]
  · rw [← BitVec.extractLsb'_append_eq_right (a := a) (b := b), h,
      BitVec.extractLsb'_append_eq_right]

/-- A word of the given fields. -/
def ofFields (funct7 : BitVec 7) (rs2 rs1 : BitVec 5) (funct3 : BitVec 3) (rd opcode : BitVec 5)
    (low : BitVec 2) : Word :=
  funct7 ++ rs2 ++ rs1 ++ funct3 ++ rd ++ opcode ++ low

/-- A word is made of its fields. -/
theorem ofFields_extract (x : Word) : ofFields (x.extractLsb' 25 7) (x.extractLsb' 20 5)
    (x.extractLsb' 15 5) (x.extractLsb' 12 3) (x.extractLsb' 7 5) (x.extractLsb' 2 5)
    (x.extractLsb' 0 2) = x := by
  rw [ofFields, BitVec.extractLsb'_append_extractLsb'_eq_extractLsb' (by rfl),
    BitVec.extractLsb'_append_extractLsb'_eq_extractLsb' (by rfl),
    BitVec.extractLsb'_append_extractLsb'_eq_extractLsb' (by rfl),
    BitVec.extractLsb'_append_extractLsb'_eq_extractLsb' (by rfl),
    BitVec.extractLsb'_append_extractLsb'_eq_extractLsb' (by rfl),
    BitVec.extractLsb'_append_extractLsb'_eq_extractLsb' (by rfl)]
  exact BitVec.extractLsb'_eq_self

section

variable {a a' : BitVec 7} {b b' c c' e e' f f' : BitVec 5} {d d' : BitVec 3} {g g' : BitVec 2}

/-- A mask acts field by field. -/
theorem ofFields_and : ofFields a b c d e f g &&& ofFields a' b' c' d' e' f' g' =
    ofFields (a &&& a') (b &&& b') (c &&& c') (d &&& d') (e &&& e') (f &&& f') (g &&& g') := by
  change (a ++ b ++ c ++ d ++ e ++ f ++ g) &&& (a' ++ b' ++ c' ++ d' ++ e' ++ f' ++ g') = _
  simp only [BitVec.and_append]
  rfl

/-- Instructions are equal field by field. -/
theorem ofFields_inj : ofFields a b c d e f g = ofFields a' b' c' d' e' f' g' ↔
    (((((a = a' ∧ b = b') ∧ c = c') ∧ d = d') ∧ e = e') ∧ f = f') ∧ g = g' := by
  change a ++ b ++ c ++ d ++ e ++ f ++ g = a' ++ b' ++ c' ++ d' ++ e' ++ f' ++ g' ↔ _
  simp only [append_inj]

end

namespace BitPat

variable (p : BitPat)

/-- The bits of a word that the listing fixes. -/
def mask : Word :=
  ofFields (fieldMask p.funct7) (fieldMask p.rs2) (fieldMask p.rs1) (fieldMask p.funct3)
    (fieldMask p.rd) (BitVec.allOnes 5) (BitVec.allOnes 2)

/-- Their values. -/
def value : Word :=
  ofFields (fieldValue p.funct7) (fieldValue p.rs2) (fieldValue p.rs1) (fieldValue p.funct3)
    (fieldValue p.rd) p.opcode 0b11

/-- A pattern is a mask and a value. -/
theorem matches_iff (x : Word) : p.matches x = true ↔ x &&& p.mask = p.value := by
  conv_rhs => rw [← ofFields_extract x, mask, value, ofFields_and, ofFields_inj]
  simp only [BitPat.matches, Bool.and_eq_true, fieldMatches_iff, decide_eq_true_eq,
    BitVec.and_allOnes]

end BitPat

/-! ## The rows of the table -/

namespace InstDecodeTable

/-- The pattern of a mnemonic. -/
def pat : Mnemonic → BitPat
  | .lui => InstPat.LUI
  | .auipc => InstPat.AUIPC
  | .jal => InstPat.JAL
  | .jalr => InstPat.JALR
  | .beq => InstPat.BEQ
  | .bne => InstPat.BNE
  | .blt => InstPat.BLT
  | .bge => InstPat.BGE
  | .bltu => InstPat.BLTU
  | .bgeu => InstPat.BGEU
  | .lb => InstPat.LB
  | .lh => InstPat.LH
  | .lw => InstPat.LW
  | .lbu => InstPat.LBU
  | .lhu => InstPat.LHU
  | .sb => InstPat.SB
  | .sh => InstPat.SH
  | .sw => InstPat.SW
  | .addi => InstPat.ADDI
  | .slti => InstPat.SLTI
  | .sltiu => InstPat.SLTIU
  | .xori => InstPat.XORI
  | .ori => InstPat.ORI
  | .andi => InstPat.ANDI
  | .slli => InstPat.SLLI
  | .srli => InstPat.SRLI
  | .srai => InstPat.SRAI
  | .add => InstPat.ADD
  | .sub => InstPat.SUB
  | .sll => InstPat.SLL
  | .slt => InstPat.SLT
  | .sltu => InstPat.SLTU
  | .xor => InstPat.XOR
  | .srl => InstPat.SRL
  | .sra => InstPat.SRA
  | .or => InstPat.OR
  | .and => InstPat.AND
  | .fence => InstPat.FENCE
  | .ecall => InstPat.ECALL
  | .ebreak => InstPat.EBREAK
  | .csrrw => InstPat.CSRRW
  | .csrrs => InstPat.CSRRS
  | .csrrc => InstPat.CSRRC
  | .csrrwi => InstPat.CSRRWI
  | .csrrsi => InstPat.CSRRSI
  | .csrrci => InstPat.CSRRCI
  | .mret => InstPat.MRET
  | .fenceI => InstPat.FENCE_I

/-- The control signals that the table lists for a mnemonic, next to its pattern.  That they are the
right ones for the instruction is `OneInst.outcome_agrees`. -/
def control (m : Mnemonic) : DecodeEntry :=
  match table.find? fun row => decide (row.1 = pat m) with
  | some row => row.2
  | none => default

/-- The patterns have the bits of the listing. -/
theorem pat_encoding : ∀ m : Mnemonic,
    (pat m).mask = m.encoding.mask ∧ (pat m).value = m.encoding.value := by
  decide +kernel

/-- A mnemonic is encoded by the words of its pattern. -/
theorem encodes_iff (m : Mnemonic) (inst : Word) :
    m.Encodes inst ↔ (pat m).matches inst = true := by
  rw [BitPat.matches_iff, (pat_encoding m).1, (pat_encoding m).2]
  rfl

/-- Every row is that of a mnemonic, and `fence` has none. -/
theorem row_of_mnemonic : ∀ row ∈ table, ∃ m : Mnemonic,
    m ≠ .fence ∧ row = (pat m, control m) := by
  decide +kernel

/-- Every mnemonic has its row in the table. -/
theorem mnemonic_row : ∀ m : Mnemonic, m ≠ .fence → (pat m, control m) ∈ table := by
  decide +kernel

/-- **The decoder finds the row of the instruction.** -/
theorem lookup_of_encodes {m : Mnemonic} {inst : Word} (h : m.Encodes inst) (hm : m ≠ .fence) :
    lookup inst = control m := by
  unfold lookup
  cases hf : table.find? fun row => row.1.matches inst with
  | none =>
      have hno := List.find?_eq_none.mp hf _ (mnemonic_row m hm)
      exact absurd ((encodes_iff m inst).mp h) hno
  | some row =>
      obtain ⟨m', -, rfl⟩ := row_of_mnemonic row (List.mem_of_find?_eq_some hf)
      have hmatch := List.find?_some hf
      rw [Mnemonic.encodes_unique h ((encodes_iff m' inst).mpr hmatch)]

/-- The decoder finds no row for other words. -/
theorem lookup_of_not_encodes {inst : Word} (h : ∀ m : Mnemonic, m.Encodes inst → m = .fence) :
    lookup inst = default := by
  have hf : (table.find? fun row => row.1.matches inst) = none := by
    refine List.find?_eq_none.mpr fun row hrow hmatch => ?_
    obtain ⟨m, hm, rfl⟩ := row_of_mnemonic row hrow
    exact hm (h m ((encodes_iff m inst).mpr hmatch))
  rw [lookup, hf]

/-- The listed instructions have a format; only the default is an error. -/
theorem control_fmt : ∀ m : Mnemonic, (control m).fmt = .E ↔ m = .fence := by
  decide +kernel

end InstDecodeTable

/-! ## Acceptance -/

namespace IDU

open InstDecodeTable

/-- The decoder rejects what nothing in the table encodes. -/
theorem fmt_eq_E_iff (inst : Word) :
    (decode inst).fmt = .E ↔ ∀ m : Mnemonic, m.Encodes inst → m = .fence := by
  refine ⟨fun h m he => ?_, fun h => by rw [decode, lookup_of_not_encodes h]; rfl⟩
  by_contra hm
  rw [decode, lookup_of_encodes he hm] at h
  exact hm ((control_fmt m).mp h)

/-- The decoder raises an illegal instruction for a word that comes without exception. -/
def RaisesIllegal (inst : Word) : Prop :=
  ∀ x : IFUOut, x.inst = inst → x.exception.valid = false →
    (excp x).valid = true ∧ (excp x).cause = ExceptionCode.IllegalInstruction

/-- An illegal instruction is a word without a format. -/
theorem raisesIllegal_iff (inst : Word) : RaisesIllegal inst ↔ (decode inst).fmt = .E := by
  constructor
  · intro h
    have hv := (h ⟨0, inst, ⟨false, 0, 0⟩, false, 0⟩ rfl rfl).1
    simpa [excp] using hv
  · intro h x hx hno
    simp [excp, hx, hno, h]

/-- **The statement about the decoder**, for one word: it is illegal if and only if it is not
an instruction, and is not given the control signals of another instruction. -/
structure AcceptsAsListed (inst : Word) : Prop where
  illegal : RaisesIllegal inst ↔ ¬ IsInst inst
  controls : ∀ m : Mnemonic, m.Encodes inst → ¬ RaisesIllegal inst → decode inst = control m

/-- **Acceptance**: the verdict is that of the listing if and only if the word is not a
`fence`, nor an instruction that names a register above `x15`. -/
theorem acceptsAsListed_iff (inst : Word) : AcceptsAsListed inst ↔
    ∀ m : Mnemonic, m.Encodes inst → m ≠ .fence ∧ m.RegsOk inst := by
  have hfence : ∀ m : Mnemonic, m = .fence → m.RegsOk inst := by
    rintro m rfl
    exact ⟨fun h => absurd h (by decide), fun h => absurd h (by decide),
      fun h => absurd h (by decide)⟩
  refine ⟨fun h m he => ?_, fun h => ⟨?_, fun m he _ => lookup_of_encodes he (h m he).1⟩⟩
  · have hill := h.illegal
    rw [raisesIllegal_iff, fmt_eq_E_iff] at hill
    have hm : m ≠ .fence := by
      intro hm
      -- a `fence` is an instruction, and has no row
      refine hill.mp (fun m' he' => ?_) ⟨m, he, hfence m hm⟩
      rw [← hm, Mnemonic.encodes_unique he he']
    refine ⟨hm, ?_⟩
    have hinst : IsInst inst := by
      by_contra hno
      exact hm (hill.mpr hno m he)
    obtain ⟨m', he', hregs⟩ := hinst
    rwa [Mnemonic.encodes_unique he he']
  · rw [raisesIllegal_iff, fmt_eq_E_iff]
    refine ⟨fun hall => ?_, fun hno m he => absurd ⟨m, he, (h m he).2⟩ hno⟩
    rintro ⟨m, he, -⟩
    exact (h m he).1 (hall m he)

/-- `fence` is in the listing and not in the table, and a register above `x15` is not
seen. -/
theorem not_acceptsAsListed : ¬ AcceptsAsListed 0x0000000f ∧ ¬ AcceptsAsListed 0x00000813 := by
  constructor
  · intro h
    have hfence : RaisesIllegal 0x0000000f := (raisesIllegal_iff _).mpr (by decide)
    exact h.illegal.mp hfence ⟨.fence, by decide, ⟨by decide, by decide, by decide⟩⟩
  · intro h
    have hlegal : ¬ RaisesIllegal 0x00000813 := fun hr =>
      absurd ((raisesIllegal_iff _).mp hr) (by decide)
    refine hlegal (h.illegal.mpr ?_)
    rintro ⟨m, he, hregs⟩
    have hm : m = .addi := Mnemonic.encodes_unique he (by decide)
    subst hm
    exact absurd (hregs.rd rfl) (by decide)

end IDU

end Bailuwan
