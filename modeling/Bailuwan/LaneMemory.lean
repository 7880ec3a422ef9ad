/-
# Memories of words with byte strobes

What the load and store unit does to a memory that is read in aligned words and written
in aligned words with a strobe for each byte (`WordMemory`).  `pmem` is the memory of
the simulator: `pmem_read` and `pmem_write` of `sim/common/dpic.cpp` over the strobe loop
of `DUTMemory::write` in `sim/common/dut_proxy.hpp`.

`lanes_agree` holds for every such memory: a naturally aligned store changes the bytes it
addresses and no others, and a naturally aligned load gives the extension of the bytes
that are there.
-/
import Mathlib.Logic.Function.Basic
import Bailuwan.Lanes

namespace Bailuwan

/-- What a beat leaves in a memory. -/
def StoredBeat.apply (s : StoredBeat) (b : Bytes) : Bytes := fun a =>
  if s.covers a then byteOf s.2.data (s.lane a) else b a

/-- A memory of aligned words.  It has the words at the addresses it serves; an access to
any other address fails. -/
structure WordMemory (σ : Type) where
  bytes : σ → Bytes
  serves : Word → Bool
  read : σ → Word → Option Word
  write : σ → Word → Word → BitVec 4 → Option σ
  read_eq : ∀ s a, serves (wordAlign a) = true → read s a = some (alignedWord (bytes s) a)
  write_eq : ∀ s a data strb, serves (wordAlign a) = true →
    (write s a data strb).map bytes =
      some (StoredBeat.apply (a, { data := data, strb := strb, last := true }) (bytes s))

/-! ## The memory of the simulator -/

/-! ### The memory areas (`common/config.hpp`, `common/dut_proxy.cpp`) -/

namespace DUTMemory

/-- `addr - base < size` without a sign, so that an address below the base is outside. -/
def inArea (base size addr : Word) : Bool := (addr - base).ult size

/-- `in_mrom` -/
def inMrom : Word → Bool := inArea 0x20000000 0x1000

/-- `in_sram` -/
def inSram : Word → Bool := inArea 0x0f000000 0x01000000

/-- `in_flash` -/
def inFlash : Word → Bool := inArea 0x30000000 0x1000000

/-- `in_psram` -/
def inPsram : Word → Bool := inArea 0x80000000 0x1000000

/-- `in_sdram` -/
def inSdram : Word → Bool := inArea 0xa0000000 (0x2000000 * 4)

/-- `in_device` -/
def inDevice (addr : Word) : Bool :=
  !inMrom addr && !inSram addr && !inFlash addr && !inPsram addr && !inSdram addr

/-- `in_sim_mem`: the SRAM is not among the memories that the simulator keeps. -/
def inSimMem (addr : Word) : Bool := inFlash addr || inMrom addr || inPsram addr || inSdram addr

/-! ### Reads and writes -/

/-- `read<int>`; no result stands for `out_of_bound_abort`. -/
def read (b : Bytes) (uaddr : Word) : Option Word :=
  if inSimMem uaddr then some (wordAt b uaddr) else none

/-- `write<int>`, with its loop over the bytes of a word. -/
def write (b : Bytes) (uaddr wdata : Word) (wmask : BitVec 8) : Option Bytes :=
  if inSimMem uaddr then
    if wmask = 0 then some b
    else some <| (List.range 4).foldl (fun haddr i =>
      if wmask.getLsbD i then Function.update haddr (uaddr + BitVec.ofNat 32 i) (byteOf wdata i)
      else haddr) b
  else none

end DUTMemory

/-- The clock is read at the offsets 8 to 28 of `RTC_MMIO`. -/
def inClock (addr : Word) : Bool :=
  decide (8 ≤ (addr - 0xa0000048).toNat) && decide ((addr - 0xa0000048).toNat ≤ 28)

/-- `pmem_read`; `clock` gives the fields of the time of day by their offset. -/
def pmemRead (clock : Word → Word) (b : Bytes) (raddr : Word) : Option Word :=
  let raddr := wordAlign raddr
  if inClock raddr then some (clock (raddr - 0xa0000048)) else DUTMemory.read b raddr

/-- `pmem_write`; what goes to `SERIAL_PORT_MMIO` is printed. -/
def pmemWrite (b : Bytes) (waddr wdata : Word) (wmask : BitVec 8) : Option Bytes :=
  let waddr := wordAlign waddr
  if waddr = 0x10000000 ∧ wmask = 1 then some b else DUTMemory.write b waddr wdata wmask

/-! ### The strobe loop -/

/-- The byte at a distance from a word. -/
theorem toNat_sub_ofNat (a w : Word) {k : ℕ} (hk : k < 4) :
    a = w + BitVec.ofNat 32 k ↔ (a - w).toNat = k := by
  have hw := w.isLt
  have ha := a.isLt
  constructor
  · rintro rfl
    rw [BitVec.toNat_sub, BitVec.toNat_add, BitVec.toNat_ofNat]
    omega
  · intro h
    apply BitVec.eq_of_toNat_eq
    rw [BitVec.toNat_sub] at h
    rw [BitVec.toNat_add, BitVec.toNat_ofNat]
    omega

/-- After `n` turns of the loop the first `n` bytes are done. -/
theorem strobe_loop (b : Bytes) (uaddr wdata : Word) (wmask : BitVec 8) (a : Word) (n : ℕ)
    (hn : n ≤ 4) :
    (List.range n).foldl (fun haddr i =>
      if wmask.getLsbD i then Function.update haddr (uaddr + BitVec.ofNat 32 i) (byteOf wdata i)
      else haddr) b a =
    if (a - uaddr).toNat < n ∧ wmask.getLsbD (a - uaddr).toNat then
      byteOf wdata (a - uaddr).toNat else b a := by
  induction n with
  | zero => simp
  | succ n ih =>
      rw [List.range_succ, List.foldl_append, List.foldl_cons, List.foldl_nil]
      have hiff := toNat_sub_ofNat a uaddr (k := n) (by omega)
      have ih := ih (by omega)
      by_cases hbit : wmask.getLsbD n = true
      · rw [if_pos hbit]
        by_cases ha : (a - uaddr).toNat = n
        · rw [hiff.mpr ha, Function.update_self, ← hiff.mpr ha, ha, if_pos ⟨by omega, hbit⟩]
        · rw [Function.update_of_ne (fun h => ha (hiff.mp h)), ih]
          have hlt : (a - uaddr).toNat < n ↔ (a - uaddr).toNat < n + 1 := by omega
          simp only [hlt]
      · rw [if_neg hbit, ih]
        by_cases ha : (a - uaddr).toNat = n
        · rw [ha, if_neg (by omega), if_neg (fun h => hbit h.2)]
        · have hlt : (a - uaddr).toNat < n ↔ (a - uaddr).toNat < n + 1 := by omega
          simp only [hlt]

/-- `DUTMemory::write` stores the bytes of a beat. -/
theorem DUTMemory.write_eq (b : Bytes) (addr data : Word) (strb : BitVec 4)
    (h : inSimMem (wordAlign addr) = true) :
    write b (wordAlign addr) data (strb.setWidth 8) =
      some (StoredBeat.apply (addr, { data := data, strb := strb, last := true }) b) := by
  have hbit : ∀ k, k < 4 → (strb.setWidth 8).getLsbD k = strb.getLsbD k := by
    intro k hk
    rw [BitVec.getLsbD_setWidth]
    simp [show k < 8 by omega]
  rw [write, if_pos h]
  split_ifs with hmask
  · -- no byte is enabled
    refine congrArg some (funext fun a => ?_)
    have hcov : StoredBeat.covers (addr, { data := data, strb := strb, last := true }) a = false := by
      rw [StoredBeat.covers, Bool.and_eq_false_iff]
      by_cases hl : StoredBeat.lane (addr, { data := data, strb := strb, last := true }) a < 4
      · right
        rw [← hbit _ hl, hmask]
        simp
      · exact .inl (decide_eq_false hl)
    rw [StoredBeat.apply, hcov]
    rfl
  · refine congrArg some (funext fun a => ?_)
    rw [strobe_loop b _ data _ a 4 le_rfl, StoredBeat.apply, StoredBeat.covers]
    show (if (a - wordAlign addr).toNat < 4 ∧ _ then _ else _) =
      if (decide ((a - wordAlign addr).toNat < 4) && strb.getLsbD (a - wordAlign addr).toNat) then
        byteOf data (a - wordAlign addr).toNat else b a
    by_cases hl : (a - wordAlign addr).toNat < 4
    · rw [hbit _ hl]
      simp only [hl, decide_true, true_and, Bool.true_and]
    · simp only [hl, decide_false, false_and, Bool.false_and, Bool.false_eq_true]

/-- **The memory of the simulator** is a memory of words, at the addresses it has and at
which the clock is not read. -/
def pmem (clock : Word → Word) : WordMemory Bytes where
  bytes := id
  serves a := DUTMemory.inSimMem a && !inClock a
  read := pmemRead clock
  write b a data strb := pmemWrite b a data (strb.setWidth 8)
  read_eq b a h := by
    simp only [Bool.and_eq_true, Bool.not_eq_true'] at h
    simp only [pmemRead, h.2, DUTMemory.read, h.1]
    rfl
  write_eq b a data strb h := by
    simp only [Bool.and_eq_true, Bool.not_eq_true'] at h
    have hserial : ¬ (wordAlign a = 0x10000000 ∧ strb.setWidth 8 = 1) := by
      rintro ⟨haddr, -⟩
      rw [haddr] at h
      exact absurd h.1 (by decide)
    simp only [pmemWrite, if_neg hserial, DUTMemory.write_eq b a data strb h.1]
    rfl

/-! ## Accesses of the load and store unit -/

/-- A load extends the sign of what it loads. -/
def LSUOp.signed : LSUOp → Bool
  | .lb | .lh => true
  | _ => false

/-- `v` is the value of a load of the `n` bytes `byte 0`, `byte 1`, ..., in little-endian
order, extended with the sign or with zeros. -/
def LSUOp.Extends (op : LSUOp) (n : ℕ) (byte : ℕ → BitVec 8) (v : Word) : Prop :=
  ∀ k < 4, byteOf v k =
    if k < n then byte k else if op.signed && (byte (n - 1)).msb then 0xff else 0

namespace LSU

variable {σ : Type} (M : WordMemory σ) (s : σ) (u : LSU) (x : Valid EXUOut)

/-- The memory after the store of an instruction. -/
def storeTo : Option σ :=
  M.write s (u.memOut x).aw.bits.addr (u.memOut x).w.bits.data (u.memOut x).w.bits.strb

/-- The value of the load of an instruction: what the unit outputs once the word it asks
for is in its register. -/
def loadFrom : Option Word :=
  (M.read s (u.memOut x).ar.bits.addr).map fun data => { u with readReg := data }.lsOut x.bits

end LSU

/-- The instruction accesses `n` bytes at a naturally aligned address the memory has. -/
structure AlignedAccess {σ : Type} (M : WordMemory σ) (x : Valid EXUOut) (n : ℕ) : Prop where
  len : (LSU.reqOp x.bits).len = some n
  aligned : x.bits.lsuAddr.toNat % n = 0
  serves : M.serves (wordAlign x.bits.lsuAddr) = true

/-- **The statement about lanes**, for a memory in some state. -/
structure LanesAgree {σ : Type} (M : WordMemory σ) (s : σ) : Prop where
  store : ∀ (u : LSU) (x : Valid EXUOut) (n : ℕ), (LSU.reqOp x.bits).stores = true →
    AlignedAccess M x n → ∃ s', u.storeTo M s x = some s' ∧
      ∀ a, M.bytes s' a = if (a - x.bits.lsuAddr).toNat < n then
        byteOf x.bits.lsuStoreData (a - x.bits.lsuAddr).toNat else M.bytes s a
  load : ∀ (u : LSU) (x : Valid EXUOut) (n : ℕ), (LSU.reqOp x.bits).loads = true →
    AlignedAccess M x n → ∃ v, u.loadFrom M s x = some v ∧
      (LSU.reqOp x.bits).Extends n (fun k => M.bytes s (x.bits.lsuAddr + BitVec.ofNat 32 k)) v
  /-- A load after a store sees its bytes where the two overlap and the old ones elsewhere. -/
  overlap : ∀ (u u' : LSU) (x y : Valid EXUOut) (n m : ℕ), (LSU.reqOp x.bits).stores = true →
    AlignedAccess M x n → (LSU.reqOp y.bits).loads = true → AlignedAccess M y m →
    ∃ s' v, u.storeTo M s x = some s' ∧ u'.loadFrom M s' y = some v ∧
      (LSU.reqOp y.bits).Extends m (fun k =>
        let a := y.bits.lsuAddr + BitVec.ofNat 32 k
        if (a - x.bits.lsuAddr).toNat < n then
          byteOf x.bits.lsuStoreData (a - x.bits.lsuAddr).toNat else M.bytes s a) v

/-! ### Extensions -/

/-- The bytes of a value without a sign: its own, and then 0. -/
theorem byteOf_setWidth {n : ℕ} (v : BitVec (8 * n)) (k : ℕ) :
    byteOf (v.setWidth 32) k = if k < n ∧ k < 4 then v.extractLsb' (8 * k) 8 else 0 := by
  apply BitVec.eq_of_getLsbD_eq
  intro j hj
  rw [byteOf, BitVec.getLsbD_extractLsb', BitVec.getLsbD_setWidth]
  split_ifs with hk
  · rw [BitVec.getLsbD_extractLsb']
    simp [show 8 * k + j < 32 by omega]
  · by_cases h4 : k < 4
    · rw [BitVec.getLsbD_of_ge v (8 * k + j) (by omega)]
      simp
    · simp [show ¬ 8 * k + j < 32 by omega]

/-- The bytes of a value with a sign: its own, and then its sign. -/
theorem byteOf_signExtend {n : ℕ} (v : BitVec (8 * n)) {k : ℕ} (hk : k < 4) :
    byteOf (v.signExtend 32) k =
      if k < n then v.extractLsb' (8 * k) 8 else if v.msb then 0xff else 0 := by
  apply BitVec.eq_of_getLsbD_eq
  intro j hj
  rw [byteOf, BitVec.getLsbD_extractLsb', BitVec.getLsbD_signExtend]
  have h32 : 8 * k + j < 32 := by omega
  by_cases hn : k < n
  · rw [if_pos hn, if_pos (show 8 * k + j < 8 * n by omega), BitVec.getLsbD_extractLsb']
    simp [h32]
  · rw [if_neg hn, if_neg (show ¬ 8 * k + j < 8 * n by omega)]
    cases hm : v.msb with
    | true =>
        simp only [h32, decide_true, Bool.and_true, if_true]
        interval_cases j <;> rfl
    | false => simp

/-- The bytes of a pair of bytes. -/
theorem extractLsb'_append_byte (hi lo : BitVec 8) :
    (hi ++ lo).extractLsb' 0 8 = lo ∧ (hi ++ lo).extractLsb' 8 8 = hi := by
  constructor
  · apply BitVec.eq_of_getLsbD_eq
    intro j hj
    rw [BitVec.getLsbD_extractLsb', BitVec.getLsbD_append, Nat.zero_add, if_pos hj]
    simp [hj]
  · apply BitVec.eq_of_getLsbD_eq
    intro j hj
    rw [BitVec.getLsbD_extractLsb', BitVec.getLsbD_append, if_neg (by omega),
      show 8 + j - 8 = j by omega]
    simp [hj]

/-- The sign is in the highest byte. -/
theorem msb_append_byte (hi lo : BitVec 8) : (hi ++ lo).msb = hi.msb := by
  rw [BitVec.msb_append]
  simp

/-! ### Loads and stores -/

section Access

variable {x : Valid EXUOut} {n : ℕ}

/-- A byte of the halfword at `a`. -/
theorem extractLsb'_half (b : Bytes) (a : Word) {k : ℕ} (hk : k < 2) :
    (b (a + 1) ++ b a).extractLsb' (8 * k) 8 = b (a + BitVec.ofNat 32 k) := by
  obtain ⟨hlow, hhigh⟩ := extractLsb'_append_byte (b (a + 1)) (b a)
  interval_cases k
  · rw [show a + BitVec.ofNat 32 0 = a from BitVec.add_zero _]
    exact hlow
  · exact hhigh

/-- What a load selects from the word around its address. -/
theorem extends_lsOut (b : Bytes) (u : LSU) (hl : (LSU.reqOp x.bits).loads = true)
    (hn : (LSU.reqOp x.bits).len = some n) (ha : x.bits.lsuAddr.toNat % n = 0) :
    (LSU.reqOp x.bits).Extends n (fun k => b (x.bits.lsuAddr + BitVec.ofNat 32 k))
      ({ u with readReg := alignedWord b x.bits.lsuAddr }.lsOut x.bits) := by
  intro k hk
  have h0 : x.bits.lsuAddr + BitVec.ofNat 32 0 = x.bits.lsuAddr := BitVec.add_zero _
  cases hop : LSU.reqOp x.bits <;> rw [hop] at hl hn <;>
    simp only [LSUOp.loads, LSUOp.len, Bool.false_eq_true, Option.some_inj] at hl hn <;> subst hn <;>
    simp only [LSU.lsOut, LSU.selectedLoadedData, hop, reduceCtorEq, if_false, lbSel_alignedWord,
      LSUOp.signed, Bool.true_and, Bool.false_and, Bool.false_eq_true]
  case lb =>
    rw [byteOf_signExtend (n := 1) _ hk]
    rcases Nat.lt_or_ge k 1 with h1 | h1
    · rw [if_pos h1, if_pos h1, show k = 0 by omega, h0]
      exact BitVec.extractLsb'_eq_self
    · rw [if_neg (show ¬ k < 1 by omega), if_neg (show ¬ k < 1 by omega), h0]
  case lbu =>
    rw [byteOf_setWidth (n := 1) _ k]
    rcases Nat.lt_or_ge k 1 with h1 | h1
    · rw [if_pos ⟨h1, hk⟩, if_pos h1, show k = 0 by omega, h0]
      exact BitVec.extractLsb'_eq_self
    · rw [if_neg (by omega), if_neg (by omega)]
  case lw =>
    rw [alignedWord_of_aligned b ha, byteOf_wordAt b _ hk, if_pos hk]
  case lh =>
    rw [lhSel_alignedWord b ha, byteOf_signExtend (n := 2) _ hk]
    rcases Nat.lt_or_ge k 2 with h1 | h1
    · rw [if_pos h1, if_pos h1, extractLsb'_half b _ h1]
    · rw [if_neg (show ¬ k < 2 by omega), if_neg (show ¬ k < 2 by omega), msb_append_byte]
      rfl
  case lhu =>
    rw [lhSel_alignedWord b ha, byteOf_setWidth (n := 2) _ k]
    rcases Nat.lt_or_ge k 2 with h1 | h1
    · rw [if_pos ⟨h1, hk⟩, if_pos h1, extractLsb'_half b _ h1]
    · rw [if_neg (by omega), if_neg (by omega)]

variable {σ : Type} {M : WordMemory σ} {s : σ}

/-- A load gives the extension of the bytes that are there. -/
theorem loadFrom_spec (u : LSU) (hl : (LSU.reqOp x.bits).loads = true)
    (h : AlignedAccess M x n) : ∃ v, u.loadFrom M s x = some v ∧
      (LSU.reqOp x.bits).Extends n
        (fun k => M.bytes s (x.bits.lsuAddr + BitVec.ofNat 32 k)) v := by
  refine ⟨_, ?_, extends_lsOut (M.bytes s) u hl h.len h.aligned⟩
  rw [LSU.loadFrom, show (u.memOut x).ar.bits.addr = x.bits.lsuAddr from rfl,
    M.read_eq s _ h.serves]
  rfl

/-- A store changes the bytes it addresses. -/
theorem storeTo_spec (u : LSU) (hs : (LSU.reqOp x.bits).stores = true)
    (h : AlignedAccess M x n) : ∃ s', u.storeTo M s x = some s' ∧
      ∀ a, M.bytes s' a = if (a - x.bits.lsuAddr).toNat < n then
        byteOf x.bits.lsuStoreData (a - x.bits.lsuAddr).toNat else M.bytes s a := by
  have hfit := LSUOp.fits h.len h.aligned
  have hw := LSU.memOut_w (u := u) hs h.len hfit
  have hwrite := M.write_eq s x.bits.lsuAddr (u.memOut x).w.bits.data (u.memOut x).w.bits.strb
    h.serves
  obtain ⟨s', hs', hbytes⟩ := Option.map_eq_some_iff.mp hwrite
  refine ⟨s', hs', fun a => ?_⟩
  rw [hbytes, hw]
  exact congrFun (storeBeat_writes (M.bytes s) x.bits.lsuStoreData hfit) a

end Access

/-- **Loads and stores agree** on every memory of words. -/
theorem lanes_agree {σ : Type} (M : WordMemory σ) (s : σ) : LanesAgree M s where
  store u _ _ hs h := storeTo_spec u hs h
  load u _ _ hl h := loadFrom_spec u hl h
  overlap u u' x y n m hs hx hl hy := by
    obtain ⟨s', hstore, hbytes⟩ := storeTo_spec (s := s) u hs hx
    obtain ⟨v, hload, hext⟩ := loadFrom_spec (s := s') u' hl hy
    refine ⟨s', v, hstore, hload, fun k hk => ?_⟩
    simp only [← hbytes]
    exact hext k hk

end Bailuwan
