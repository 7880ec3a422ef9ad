/-
# The decoders of the traces

`isa_decode_branch` and `isa_decode_ldstr` have pattern lists of their own.  For every word
they say what `decode_exec` does with it: `execWord` is its body for a word that need not be
the one in memory at the `pc`, and the access it makes is read off what it does, a load by
the bytes of memory that its effect depends on and a store by the one it makes.
-/
import Bailuwan.LaneMemory
import Bailuwan.Tracesim

namespace Bailuwan

namespace Nemu

/-- `decode_exec` of the word `inst`. -/
def execWord (s : CPU) (inst : Word) : Option Effect :=
  execBody s (decodeOperand s inst (decode inst).2) (decode inst).1

/-- An instruction is executed as the word that it is. -/
theorem decodeExec_eq (s : CPU) : decodeExec s = execWord s s.inst := rfl

/-! ## The statement -/

/-- A conditional branch, `jal` or `jalr`. -/
def Inst.isBranch : Inst → Bool
  | .beq | .bne | .blt | .bge | .bltu | .bgeu | .jal | .jalr => true
  | _ => false

section Statement

variable (s : CPU) (inst : Word)

/-- What the instruction does depends on the byte at `x`. -/
def DependsOnByte (x : Word) : Prop :=
  ∃ (mem : Bytes) (b : BitVec 8), execWord { s with mem := mem } inst ≠
    execWord { s with mem := Function.update mem x b } inst

/-- The instruction reads `len` bytes at `addr`: what it does depends on these bytes and on
no others. -/
structure ReadsAt (addr : Word) (len : ℕ) : Prop where
  pos : 0 < len
  le : len ≤ 4
  bytes : ∀ x, DependsOnByte s inst x ↔ (x - addr).toNat < len

/-- The instruction writes `len` bytes at `addr`. -/
def WritesAt (addr : Word) (len : ℕ) : Prop :=
  ∃ e data, execWord s inst = some e ∧ e.store = some ⟨addr, len, data⟩

/-- **The statement about the decoders**, for one word. -/
structure DecodersAgree : Prop where
  branch_iff : (isaDecodeBranch s s.pc inst).isSome = true ↔ (decode inst).1.isBranch = true
  branch : ∀ b, isaDecodeBranch s s.pc inst = some b →
    (∃ e, execWord s inst = some e ∧ e.dnpc = if b.taken then b.target else s.pc + 4) ∧
      (b.is_uncond = true ↔ (decode inst).1 = .jal ∨ (decode inst).1 = .jalr)
  reads_iff : ∀ addr, isaDecodeLdstr s inst = some ⟨true, addr⟩ ↔ ∃ len, ReadsAt s inst addr len
  writes_iff : ∀ addr,
    isaDecodeLdstr s inst = some ⟨false, addr⟩ ↔ ∃ len, WritesAt s inst addr len

end Statement

/-! ## What a load reads -/

/-- The bytes of a value read. -/
theorem byteOf_read (mem : Bytes) (a : Word) {len k : ℕ} (hlen : len = 1 ∨ len = 2 ∨ len = 4)
    (hk : k < len) : byteOf (read mem a len) k = mem (a + BitVec.ofNat 32 k) := by
  rcases hlen with rfl | rfl | rfl
  · rw [show k = 0 by omega, show a + BitVec.ofNat 32 0 = a from BitVec.add_zero a]
    exact (byteOf_setWidth (n := 1) (mem a) 0).trans (BitVec.extractLsb'_eq_self ..)
  · have hb := byteOf_setWidth (n := 2) (mem (a + 1) ++ mem a) k
    rw [if_pos ⟨hk, by omega⟩, extractLsb'_half mem a hk] at hb
    exact hb
  · exact byteOf_wordAt mem a hk

/-- The bytes of a value read do not change when it is extended. -/
theorem byteOf_SEXT (w : Word) {n k : ℕ} (hk : k < n) (hn : n ≤ 4) :
    byteOf (SEXT w (8 * n)) k = byteOf w k := by
  rw [SEXT, byteOf_signExtend _ (by omega), if_pos hk, byteOf]
  apply BitVec.eq_of_getLsbD_eq
  intro j hj
  rw [BitVec.getLsbD_extractLsb', BitVec.getLsbD_extractLsb', BitVec.getLsbD_setWidth,
    decide_eq_true (show 8 * k + j < 8 * n by omega), Bool.true_and]

/-- A value read depends on its bytes only. -/
theorem read_congr {mem mem' : Bytes} {a : Word} {len : ℕ}
    (h : ∀ k < len, mem (a + BitVec.ofNat 32 k) = mem' (a + BitVec.ofNat 32 k)) :
    read mem a len = read mem' a len := by
  have hbyte : ∀ k : ℕ, k < len → mem (a + BitVec.ofNat 32 k) = mem' (a + BitVec.ofNat 32 k) := h
  unfold read
  split
  · have h0 : mem a = mem' a := by simpa using hbyte 0 (by decide)
    rw [h0]
  · have h0 : mem a = mem' a := by simpa using hbyte 0 (by decide)
    rw [h0, show mem (a + 1) = mem' (a + 1) from hbyte 1 (by decide)]
  · have h0 : mem a = mem' a := by simpa using hbyte 0 (by decide)
    rw [wordAt, wordAt, h0, show mem (a + 1) = mem' (a + 1) from hbyte 1 (by decide),
      show mem (a + 2) = mem' (a + 2) from hbyte 2 (by decide),
      show mem (a + 3) = mem' (a + 3) from hbyte 3 (by decide)]
  · rfl

/-- The value that a load gives, as a function of memory. -/
structure LoadsFrom (a : Word) (len : ℕ) (v : Bytes → Word) : Prop where
  size : len = 1 ∨ len = 2 ∨ len = 4
  bytes : ∀ mem k, k < len → byteOf (v mem) k = mem (a + BitVec.ofNat 32 k)
  congr : ∀ mem mem', (∀ k < len, mem (a + BitVec.ofNat 32 k) = mem' (a + BitVec.ofNat 32 k)) →
    v mem = v mem'

/-- A load depends on its own bytes. -/
theorem loadsFrom_read (a : Word) {len : ℕ} (hlen : len = 1 ∨ len = 2 ∨ len = 4) :
    LoadsFrom a len fun mem => read mem a len :=
  ⟨hlen, fun mem _ hk => byteOf_read mem a hlen hk, fun _ _ h => read_congr h⟩

/-- The sign does not add others. -/
theorem LoadsFrom.sext {a : Word} {len : ℕ} {v : Bytes → Word} (h : LoadsFrom a len v) :
    LoadsFrom a len fun mem => SEXT (v mem) (8 * len) := by
  have hle : len ≤ 4 := by have := h.size; omega
  refine ⟨h.size, fun mem k hk => ?_, fun mem mem' heq => ?_⟩
  · rw [byteOf_SEXT (v mem) hk hle, h.bytes mem k hk]
  · exact congrArg (fun w => SEXT w (8 * len)) (h.congr mem mem' heq)

section Body

variable {s : CPU} {o : Operands} {i : Inst}

/-- A load assigns a value from memory to its register. -/
theorem execBody_of_loads (h : i.loads = true) : ∃ len v, i.len = some len ∧
    LoadsFrom (o.src1 + o.imm) len v ∧
      ∀ mem, execBody { s with mem := mem } o i = some (setRd s o (v mem)) := by
  cases i <;> simp only [Inst.loads, Bool.false_eq_true] at h
  · exact ⟨1, _, rfl, (loadsFrom_read _ (by omega)).sext, fun _ => rfl⟩
  · exact ⟨2, _, rfl, (loadsFrom_read _ (by omega)).sext, fun _ => rfl⟩
  · exact ⟨4, _, rfl, loadsFrom_read _ (by omega), fun _ => rfl⟩
  · exact ⟨1, _, rfl, loadsFrom_read _ (by omega), fun _ => rfl⟩
  · exact ⟨2, _, rfl, loadsFrom_read _ (by omega), fun _ => rfl⟩

/-- Nothing else looks at memory. -/
theorem execBody_of_not_loads (h : i.loads = false) (mem : Bytes) :
    execBody { s with mem := mem } o i = execBody s o i := by
  cases i <;> first | exact absurd h (by decide) | rfl

/-- A store is made by the instructions that have a length and do not load. -/
theorem execBody_store {e : Effect} (he : execBody s o i = some e) (st : Store) :
    e.store = some st ↔ ∃ len, i.len = some len ∧ i.loads = false ∧
      ⟨o.src1 + o.imm, len, o.src2⟩ = st := by
  cases i <;> cases he <;> simp [setRd, storeMem, branch, csrOp, Inst.len, Inst.loads]

/-- A store is always executed. -/
theorem exists_store {len : ℕ} (hlen : i.len = some len) (hl : i.loads = false) :
    ∃ e, execBody s o i = some e := by
  cases i <;> first | exact ⟨_, rfl⟩ | exact absurd hlen (by simp [Inst.len])

end Body

/-! ## The accesses -/

section Access

variable {s : CPU} {inst : Word}

/-- The operands do not depend on the memory. -/
theorem decodeOperand_mem (s : CPU) (mem : Bytes) (inst : Word) (type : InstType) :
    decodeOperand { s with mem := mem } inst type = decodeOperand s inst type := by
  cases type <;> rfl

/-- A load depends on the bytes it loads. -/
theorem dependsOnByte_iff (h : (decode inst).1.loads = true) : ∃ len,
    (decode inst).1.len = some len ∧ (len = 1 ∨ len = 2 ∨ len = 4) ∧
      ∀ x, DependsOnByte s inst x ↔ (x - ((decodeOperand s inst (decode inst).2).src1 +
        (decodeOperand s inst (decode inst).2).imm)).toNat < len := by
  obtain ⟨len, v, hlen, hv, hexec⟩ := execBody_of_loads (s := s)
    (o := decodeOperand s inst (decode inst).2) h
  refine ⟨len, hlen, hv.size, fun x => ?_⟩
  have hword : ∀ mem, execWord { s with mem := mem } inst =
      some (setRd s (decodeOperand s inst (decode inst).2) (v mem)) := by
    intro mem
    rw [execWord, decodeOperand_mem]
    exact hexec mem
  generalize (decodeOperand s inst (decode inst).2).src1 +
    (decodeOperand s inst (decode inst).2).imm = a at hv ⊢
  unfold DependsOnByte
  simp only [hword]
  constructor
  · rintro ⟨mem, b, hne⟩
    by_contra hout
    refine hne (congrArg (fun w => some (setRd s _ w)) (hv.congr _ _ fun k hk => ?_))
    refine (Function.update_of_ne (fun heq => hout ?_) ..).symm
    have hk4 : k < 4 := by have := hv.size; omega
    rw [(toNat_sub_ofNat x a hk4).mp heq.symm]
    exact hk
  · intro hin
    have hk4 : (x - a).toNat < 4 := by have := hv.size; omega
    have hx : x = a + BitVec.ofNat 32 (x - a).toNat := (toNat_sub_ofNat x a hk4).mpr rfl
    -- a memory of zeros, and the one with a 1 at `x`
    refine ⟨fun _ => 0, 1, fun heq => ?_⟩
    have hval : v (fun _ => 0) = v (Function.update (fun _ => 0) x 1) := by
      simpa [setRd] using heq
    have hbyte := congrArg (fun w => byteOf w (x - a).toNat) hval
    simp only [hv.bytes _ _ hin, ← hx, Function.update_self] at hbyte
    exact absurd hbyte (by decide)

/-- What is no load depends on no byte. -/
theorem not_dependsOnByte (h : (decode inst).1.loads = false) (x : Word) :
    ¬ DependsOnByte s inst x := by
  rintro ⟨mem, b, hne⟩
  refine hne ?_
  have hword : ∀ m : Bytes, execWord { s with mem := m } inst = execWord s inst := by
    intro m
    rw [execWord, execWord, decodeOperand_mem, execBody_of_not_loads h]
  exact (hword mem).trans (hword _).symm

/-- Two short runs of bytes with the same elements begin alike. -/
theorem start_unique {a b : Word} {m n : ℕ} (hm : 0 < m) (hm4 : m ≤ 4) (hn : 0 < n) (hn4 : n ≤ 4)
    (h : ∀ x : Word, (x - a).toNat < m ↔ (x - b).toNat < n) : a = b := by
  have ha : (a - b).toNat < n := (h a).mp (by simpa using hm)
  have hb : (b - a).toNat < m := (h b).mpr (by simpa using hn)
  apply BitVec.eq_of_toNat_eq
  rw [BitVec.toNat_sub] at ha hb
  have := a.isLt
  have := b.isLt
  omega

/-- The decoder tells the loads. -/
theorem reads_iff (s : CPU) (inst addr : Word) :
    isaDecodeLdstr s inst = some ⟨true, addr⟩ ↔ ∃ len, ReadsAt s inst addr len := by
  rw [isaDecodeLdstr_word]
  cases hl : (decode inst).1.loads with
  | false =>
      constructor
      · intro h
        split at h <;> simp at h
      · rintro ⟨len, hr⟩
        have hdep := (hr.bytes addr).mpr (by simpa using hr.pos)
        exact absurd hdep (not_dependsOnByte hl addr)
  | true =>
      obtain ⟨len, hlen, hsize, hdep⟩ := dependsOnByte_iff (s := s) hl
      rw [hlen, if_pos (Option.isSome_some), Option.some_inj, DcacheEntry.mk.injEq]
      constructor
      · rintro ⟨-, rfl⟩
        exact ⟨len, by omega, by omega, hdep⟩
      · rintro ⟨len', hr⟩
        have hpos : 0 < len := by omega
        refine ⟨rfl, start_unique hpos (by omega) hr.pos hr.le fun x => ?_⟩
        rw [← hdep x, hr.bytes x]

/-- The decoder tells the stores. -/
theorem writes_iff (s : CPU) (inst addr : Word) :
    isaDecodeLdstr s inst = some ⟨false, addr⟩ ↔ ∃ len, WritesAt s inst addr len := by
  rw [isaDecodeLdstr_word]
  constructor
  · intro h
    split at h
    · rename_i hsome
      rw [Option.some_inj, DcacheEntry.mk.injEq] at h
      obtain ⟨len, hlen⟩ := Option.isSome_iff_exists.mp hsome
      obtain ⟨e, he⟩ := exists_store (s := s) (o := decodeOperand s inst (decode inst).2) hlen h.1
      exact ⟨len, e, _, he, (execBody_store he _).mpr ⟨len, hlen, h.1, by rw [h.2]⟩⟩
    · exact absurd h (by simp)
  · rintro ⟨len, e, data, he, hst⟩
    obtain ⟨len', hlen, hl, heq⟩ := (execBody_store he _).mp hst
    rw [Store.mk.injEq] at heq
    rw [hlen, if_pos (Option.isSome_some), hl, heq.1]

end Access

/-! ## The branches -/

/-- Branches have an entry. -/
theorem isSome_branch_iff (i : Inst) (pc : Word) (o : Operands) :
    (i.branch pc o).isSome = i.isBranch := by
  cases i <;> rfl

/-- The entry of a branch says if it is unconditional. -/
theorem is_uncond_iff {i : Inst} {pc : Word} {o : Operands} {b : BranchEntry}
    (h : i.branch pc o = some b) : b.is_uncond = true ↔ i = .jal ∨ i = .jalr := by
  cases i <;> cases h <;> simp

/-- **The decoders of the traces agree with the execution**, for every word, every state of
the registers and every memory. -/
theorem decodersAgree (s : CPU) (inst : Word) : DecodersAgree s inst where
  branch_iff := by rw [isaDecodeBranch_word, isSome_branch_iff]
  branch := fun b hb => by
    rw [isaDecodeBranch_word] at hb
    exact ⟨execBody_branch hb, is_uncond_iff hb⟩
  reads_iff := reads_iff s inst
  writes_iff := writes_iff s inst

end Nemu

end Bailuwan
