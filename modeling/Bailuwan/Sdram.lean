/-
# The shim of the SDRAM (`sim/common/dpic.cpp`)

The chips of the SDRAM are blocks of halfwords, which the simulator keeps at the addresses that
the core has issued.  `convert_sdram_addr` puts such an address together from the row and bank,
the column and the number of the chip.  No two halfwords get the same address, so the chips are
an array of independent halfwords (`sdram_halfwords`).
-/
import Bailuwan.LaneMemory
import Bailuwan.LastWrite

namespace Bailuwan

/-! ## Halfwords of the memory (`sim/common/dut_proxy.hpp`) -/

/-- A byte of a halfword, byte 0 being the least significant. -/
def halfByte (h : BitVec 16) (k : ℕ) : BitVec 8 := h.extractLsb' (8 * k) 8

/-- `read<int16_t>`; no result stands for `out_of_bound_abort`. -/
def DUTMemory.readHalf (b : Bytes) (uaddr : Word) : Option (BitVec 16) :=
  if inSimMem uaddr then some (b (uaddr + 1) ++ b uaddr) else none

/-- `write<int16_t>` -/
def DUTMemory.writeHalf (b : Bytes) (uaddr : Word) (wdata : BitVec 16) (wmask : BitVec 8) :
    Option Bytes :=
  if inSimMem uaddr then
    if wmask = 0 then some b
    else some <| (List.range 2).foldl (fun haddr i =>
      if wmask.getLsbD i then Function.update haddr (uaddr + BitVec.ofNat 32 i) (halfByte wdata i)
      else haddr) b
  else none

namespace Sdram

/-! ## The shim -/

/-- `BITS(x, hi, lo)` of a signed `x`, which is an `unsigned long long`. -/
def BITS {w : ℕ} (x : BitVec w) (hi lo : ℕ) : BitVec 64 :=
  (x.sshiftRight lo).signExtend 64 &&& BitVec.ofNat 64 (2 ^ (hi - lo + 1) - 1)

/-- Where the SDRAM begins. -/
def CONFIG_SDRAM_BASE : Word := 0xa0000000

/-- `convert_sdram_addr` -/
def convertSdramAddr (addr : Word) (id : BitVec 8) : Word :=
  let npcAddr := (BITS addr 24 12 <<< 13) ||| (BITS id 1 1 <<< 12) ||| (BITS addr 11 2 <<< 2)
  let npcAddr := npcAddr + BITS id 0 0 * 2
  let npcAddr := npcAddr + CONFIG_SDRAM_BASE.setWidth 64
  npcAddr.setWidth 32

/-- `sdram_read` -/
def sdramRead (b : Bytes) (raddr : Word) (id : BitVec 8) : Option (BitVec 16) :=
  DUTMemory.readHalf b (convertSdramAddr raddr id)

/-- `sdram_write` -/
def sdramWrite (b : Bytes) (waddr : Word) (wdata : BitVec 16) (mask id : BitVec 8) :
    Option Bytes :=
  DUTMemory.writeHalf b (convertSdramAddr waddr id) wdata mask

/-- An address of a chip, and the number of the chip. -/
structure Place where
  addr : Word
  id : BitVec 8
  aligned : addr.toNat % 4 = 0
  addr_lt : addr.toNat < 2 ^ 25
  id_lt : id.toNat < 4
  deriving DecidableEq

/-- A call of `sdram_write`. -/
structure Write where
  place : Place
  data : BitVec 16
  mask : BitVec 8

/-- Calls of `sdram_write` one after the other. -/
def writeAll (b : Bytes) (ws : List Write) : Option Bytes :=
  ws.foldlM (fun b w => sdramWrite b w.place.addr w.data w.mask w.place.id) b

/-- `o[25:13] ## o[11:2] ## 0.U(2.W)` -/
def splitAddr (o : BitVec 26) : Word :=
  (o.extractLsb' 13 13 ++ o.extractLsb' 2 10 ++ 0#2).setWidth 32

/-- `o[12] ## o[1]` -/
def splitId (o : BitVec 26) : BitVec 8 := (o.extractLsb' 12 1 ++ o.extractLsb' 1 1).setWidth 8

/-! ## The array -/

/-- A byte of a halfword of the array. -/
abbrev Cell := Place × Fin 2

/-- The write enables a byte. -/
def Write.covers (w : Write) (c : Cell) : Bool := decide (w.place = c.1) && w.mask.getLsbD c.2

/-- The byte for it. -/
def Write.value (w : Write) (c : Cell) : BitVec 8 := halfByte w.data c.2

/-- The address at which the simulator keeps a half word. -/
def Place.npcAddr (p : Place) : Word := convertSdramAddr p.addr p.id

/-- The bytes of the array in the memory of the simulator. -/
def contents (b : Bytes) : Cell → BitVec 8 := fun c => b (c.1.npcAddr + BitVec.ofNat 32 c.2)

/-! ## The address -/

/-- `BITS` divides and takes the remainder. -/
theorem toNat_BITS {w : ℕ} (x : BitVec w) {hi lo : ℕ} (hlo : lo ≤ hi) (hhi : hi < w)
    (hw : w ≤ 64) : (BITS x hi lo).toNat = x.toNat / 2 ^ lo % 2 ^ (hi - lo + 1) := by
  have hext : BITS x hi lo = (x.extractLsb' lo (hi - lo + 1)).setWidth 64 := by
    apply BitVec.eq_of_getLsbD_eq
    intro j hj
    rw [BITS, BitVec.getLsbD_and, BitVec.getLsbD_ofNat, Nat.testBit_two_pow_sub_one,
      BitVec.getLsbD_setWidth, BitVec.getLsbD_extractLsb']
    by_cases h : j < hi - lo + 1
    · rw [BitVec.getLsbD_signExtend, BitVec.getLsbD_sshiftRight]
      simp [h, hj, show j < w by omega, show lo + j < w by omega]
    · simp [h]
  have hle : 2 ^ (hi - lo + 1) ≤ 2 ^ 64 := Nat.pow_le_pow_right (by decide) (by omega)
  rw [hext, BitVec.toNat_setWidth, toNat_field]
  exact Nat.mod_eq_of_lt (Nat.lt_of_lt_of_le (Nat.mod_lt _ (Nat.two_pow_pos _)) hle)

/-- A field that fits where it is shifted to. -/
theorem toNat_shiftLeft_of_lt (x : BitVec 64) {n : ℕ} (h : x.toNat * 2 ^ n < 2 ^ 64) :
    (x <<< n).toNat = x.toNat * 2 ^ n := by
  rw [BitVec.toNat_shiftLeft, Nat.shiftLeft_eq, Nat.mod_eq_of_lt h]

/-- Fields that do not overlap are added by an or. -/
theorem toNat_fields (row word col : BitVec 64) (hrow : row.toNat < 8192) (hword : word.toNat < 2)
    (hcol : col.toNat < 1024) : (row <<< 13 ||| word <<< 12 ||| col <<< 2).toNat =
      row.toNat * 8192 + word.toNat * 4096 + col.toNat * 4 := by
  have hlow := Nat.two_pow_add_eq_or_of_lt (i := 12) (b := col.toNat * 2 ^ 2) (by omega) word.toNat
  have hhigh := Nat.two_pow_add_eq_or_of_lt (i := 13)
    (b := 2 ^ 12 * word.toNat + col.toNat * 2 ^ 2) (by omega) row.toNat
  rw [BitVec.toNat_or, BitVec.toNat_or, toNat_shiftLeft_of_lt row (by omega),
    toNat_shiftLeft_of_lt word (by omega), toNat_shiftLeft_of_lt col (by omega), Nat.or_assoc,
    Nat.mul_comm row.toNat, Nat.mul_comm word.toNat, ← hlow, ← hhigh]
  omega

/-- The last two sums do not overflow. -/
theorem toNat_add_base {x bit : BitVec 64} (hx : x.toNat < 2 ^ 26) (hbit : bit.toNat < 2) :
    ((x + bit * 2 + CONFIG_SDRAM_BASE.setWidth 64).setWidth 32).toNat =
      0xa0000000 + (x.toNat + bit.toNat * 2) := by
  have hbase : (CONFIG_SDRAM_BASE.setWidth 64).toNat = 0xa0000000 := by decide
  have htwo : (2 : BitVec 64).toNat = 2 := by decide
  rw [BitVec.toNat_setWidth, BitVec.toNat_add, BitVec.toNat_add, BitVec.toNat_mul, hbase, htwo]
  omega

/-- **The address that the fields make up.** -/
theorem toNat_convertSdramAddr (addr : Word) (id : BitVec 8) :
    (convertSdramAddr addr id).toNat = 0xa0000000 + (addr.toNat / 4096 % 8192 * 8192 +
      id.toNat / 2 % 2 * 4096 + addr.toNat / 4 % 1024 * 4 + id.toNat % 2 * 2) := by
  have hrow : (BITS addr 24 12).toNat = addr.toNat / 4096 % 8192 :=
    toNat_BITS addr (by decide) (by decide) (by decide)
  have hcol : (BITS addr 11 2).toNat = addr.toNat / 4 % 1024 :=
    toNat_BITS addr (by decide) (by decide) (by decide)
  have hword : (BITS id 1 1).toNat = id.toNat / 2 % 2 :=
    toNat_BITS id (by decide) (by decide) (by decide)
  have hbit : (BITS id 0 0).toNat = id.toNat % 2 := by
    have hbits : (BITS id 0 0).toNat = id.toNat / 1 % 2 :=
      toNat_BITS id (by decide) (by decide) (by decide)
    rw [hbits, Nat.div_one]
  have hrow' : (BITS addr 24 12).toNat < 8192 := hrow ▸ Nat.mod_lt _ (by decide)
  have hcol' : (BITS addr 11 2).toNat < 1024 := hcol ▸ Nat.mod_lt _ (by decide)
  have hword' : (BITS id 1 1).toNat < 2 := hword ▸ Nat.mod_lt _ (by decide)
  have hbit' : (BITS id 0 0).toNat < 2 := hbit ▸ Nat.mod_lt _ (by decide)
  have hfields := toNat_fields _ _ _ hrow' hword' hcol'
  rw [← hrow, ← hcol, ← hword, ← hbit, ← hfields]
  exact toNat_add_base (by omega) hbit'

/-- The address in the chips of an offset. -/
theorem toNat_splitAddr (o : BitVec 26) :
    (splitAddr o).toNat = o.toNat / 8192 % 8192 * 4096 + o.toNat / 4 % 1024 * 4 := by
  have hrow : (o.extractLsb' 13 13).toNat = o.toNat / 8192 % 8192 := toNat_field o 13 13
  have hcol : (o.extractLsb' 2 10).toNat = o.toNat / 4 % 1024 := toNat_field o 2 10
  rw [splitAddr, BitVec.toNat_setWidth, toNat_append_eq, toNat_append_eq, hrow, hcol,
    BitVec.toNat_ofNat]
  omega

/-- The chips of an offset. -/
theorem toNat_splitId (o : BitVec 26) :
    (splitId o).toNat = o.toNat / 4096 % 2 * 2 + o.toNat / 2 % 2 := by
  have hword : (o.extractLsb' 12 1).toNat = o.toNat / 4096 % 2 := toNat_field o 12 1
  have hbit : (o.extractLsb' 1 1).toNat = o.toNat / 2 % 2 := toNat_field o 1 1
  rw [splitId, BitVec.toNat_setWidth, toNat_append_eq, hword, hbit]
  omega

/-- The fields of a split are those of the offset. -/
theorem fields_split (o : BitVec 26) :
    (splitAddr o).toNat / 4096 % 8192 = o.toNat / 8192 ∧
    (splitAddr o).toNat / 4 % 1024 = o.toNat / 4 % 1024 ∧
    (splitId o).toNat / 2 % 2 = o.toNat / 4096 % 2 ∧ (splitId o).toNat % 2 = o.toNat / 2 % 2 := by
  have ho := o.isLt
  rw [toNat_splitAddr, toNat_splitId]
  refine ⟨?_, ?_, ?_, ?_⟩ <;> omega

/-- **The split is undone**, but for bit 0. -/
theorem convert_split (o : BitVec 26) : convertSdramAddr (splitAddr o) (splitId o) =
    CONFIG_SDRAM_BASE + (o.setWidth 32 &&& ~~~1) := by
  have ho := o.isLt
  obtain ⟨hrow, hcol, hword, hbit⟩ := fields_split o
  have hclear : (o.setWidth 32 &&& ~~~1).toNat = o.toNat / 2 * 2 := by
    have hmask : (o.setWidth 32 &&& ~~~1).toNat = (o.setWidth 32).toNat / 2 * 2 :=
      toNat_and_not_low (o.setWidth 32) 1
    rw [hmask, BitVec.toNat_setWidth]
    omega
  apply BitVec.eq_of_toNat_eq
  rw [toNat_convertSdramAddr, hrow, hcol, hword, hbit, BitVec.toNat_add, hclear,
    show CONFIG_SDRAM_BASE.toNat = 0xa0000000 by decide]
  omega

/-! ## Places -/

variable {b b' : Bytes} {p q : Place}

/-- The address of a place, in numbers. -/
theorem Place.toNat_npcAddr (p : Place) : p.npcAddr.toNat = 0xa0000000 +
    (p.addr.toNat / 4096 % 8192 * 8192 + p.id.toNat / 2 % 2 * 4096 + p.addr.toNat / 4 % 1024 * 4 +
      p.id.toNat % 2 * 2) := toNat_convertSdramAddr p.addr p.id

/-- It is even and in the range of the memory. -/
theorem Place.npcAddr_range (p : Place) : p.npcAddr.toNat % 2 = 0 ∧
    0xa0000000 ≤ p.npcAddr.toNat ∧ p.npcAddr.toNat < 0xa0000000 + 2 ^ 26 := by
  rw [p.toNat_npcAddr]
  omega

/-- Fields that do not overlap are determined by their sum. -/
theorem fields_inj {row word col bit row' word' col' bit' : ℕ} (hword : word < 2)
    (hcol : col < 1024) (hbit : bit < 2) (hword' : word' < 2) (hcol' : col' < 1024)
    (hbit' : bit' < 2) (h : row * 8192 + word * 4096 + col * 4 + bit * 2 =
      row' * 8192 + word' * 4096 + col' * 4 + bit' * 2) :
    row = row' ∧ word = word' ∧ col = col' ∧ bit = bit' := by
  omega

/-- The address of a place has no bits outside of its fields. -/
theorem Place.addr_eq (p : Place) : p.addr.toNat =
    p.addr.toNat / 4096 % 8192 * 4096 + p.addr.toNat / 4 % 1024 * 4 := by
  have haligned := p.aligned
  have hlt := p.addr_lt
  omega

/-- A number of two bits, bit by bit. -/
theorem Place.id_eq (p : Place) : p.id.toNat = p.id.toNat / 2 % 2 * 2 + p.id.toNat % 2 := by
  have hlt := p.id_lt
  omega

/-- **Two halfwords do not get the same address.** -/
theorem Place.eq_of_npcAddr (h : p.npcAddr.toNat = q.npcAddr.toNat) : p = q := by
  rw [p.toNat_npcAddr, q.toNat_npcAddr] at h
  obtain ⟨hrow, hword, hcol, hbit⟩ := fields_inj (Nat.mod_lt _ (by decide))
    (Nat.mod_lt _ (by decide)) (Nat.mod_lt _ (by decide)) (Nat.mod_lt _ (by decide))
    (Nat.mod_lt _ (by decide)) (Nat.mod_lt _ (by decide)) (Nat.add_left_cancel h)
  have haddr : p.addr.toNat = q.addr.toNat := by
    rw [p.addr_eq, q.addr_eq, hrow, hcol]
  have hid : p.id.toNat = q.id.toNat := by
    rw [p.id_eq, q.id_eq, hword, hbit]
  obtain ⟨paddr, pid⟩ := p
  obtain rfl := BitVec.eq_of_toNat_eq haddr
  obtain rfl := BitVec.eq_of_toNat_eq hid
  rfl

/-- The place is in the memory of the simulator. -/
theorem Place.inSimMem (p : Place) : DUTMemory.inSimMem p.npcAddr = true := by
  have hrange := p.npcAddr_range
  have hoffset : (p.npcAddr - 0xa0000000).toNat = p.npcAddr.toNat - 0xa0000000 :=
    BitVec.toNat_sub_of_le (BitVec.le_def.mpr hrange.2.1)
  have hsdram : DUTMemory.inSdram p.npcAddr = true := by
    rw [DUTMemory.inSdram, DUTMemory.inArea, BitVec.ult, decide_eq_true_iff, hoffset,
      show ((0x2000000 * 4 : Word)).toNat = 2 ^ 27 by decide]
    omega
  rw [DUTMemory.inSimMem, hsdram, Bool.or_true]

/-- The second byte of a halfword comes after the first one. -/
theorem Place.toNat_lane (p : Place) (k : Fin 2) :
    (p.npcAddr + BitVec.ofNat 32 k).toNat = p.npcAddr.toNat + k := by
  have hrange := p.npcAddr_range
  have hk := k.isLt
  rw [BitVec.toNat_add, BitVec.toNat_ofNat]
  omega

/-- The bytes of a halfword lie at its address. -/
theorem lane_self (p : Place) (k : Fin 2) :
    (p.npcAddr + BitVec.ofNat 32 k - p.npcAddr).toNat = k := by
  have hk := k.isLt
  rw [BitVec.toNat_sub, p.toNat_lane]
  omega

/-- The bytes of another halfword do not. -/
theorem lane_other (h : q ≠ p) (k : Fin 2) :
    ¬ (q.npcAddr + BitVec.ofNat 32 k - p.npcAddr).toNat < 2 := by
  have hp := p.npcAddr_range
  have hq := q.npcAddr_range
  have hne : q.npcAddr.toNat ≠ p.npcAddr.toNat := fun heq => h (Place.eq_of_npcAddr heq)
  have hk := k.isLt
  rw [BitVec.toNat_sub, q.toNat_lane]
  omega

/-! ## Bytes of halfwords -/

theorem toNat_halfByte (v : BitVec 16) (k : ℕ) :
    (halfByte v k).toNat = v.toNat / 2 ^ (8 * k) % 256 := toNat_field v (8 * k) 8

/-- A halfword is its bytes. -/
theorem eq_of_halfByte {v v' : BitVec 16} (h : ∀ k : Fin 2, halfByte v k = halfByte v' k) :
    v = v' := by
  have hlow := congrArg BitVec.toNat (h 0)
  have hhigh := congrArg BitVec.toNat (h 1)
  rw [toNat_halfByte, toNat_halfByte] at hlow hhigh
  have hv := v.isLt
  have hv' := v'.isLt
  apply BitVec.eq_of_toNat_eq
  simp only [Fin.val_zero, Fin.val_one] at hlow hhigh
  omega

/-- The bytes of a halfword that is put together. -/
theorem halfByte_append (high low : BitVec 8) :
    halfByte (high ++ low) 0 = low ∧ halfByte (high ++ low) 1 = high := by
  have hlow := low.isLt
  have hhigh := high.isLt
  constructor
  · apply BitVec.eq_of_toNat_eq
    rw [toNat_halfByte, toNat_append_eq]
    omega
  · apply BitVec.eq_of_toNat_eq
    rw [toNat_halfByte, toNat_append_eq]
    omega

/-- The bytes of a halfword are those of its word. -/
theorem halfByte_eq_byteOf (v : BitVec 16) {k : ℕ} (hk : k < 2) :
    halfByte v k = byteOf (v.setWidth 32) k := by
  have hbyte := byteOf_setWidth (n := 2) v k
  rw [if_pos ⟨hk, by omega⟩] at hbyte
  exact hbyte.symm

/-- A halfword is read where there is memory. -/
theorem readHalf_eq {a : Word} (h : DUTMemory.inSimMem a = true) (b : Bytes) :
    DUTMemory.readHalf b a = some (b (a + 1) ++ b a) := if_pos h

/-- The enabled bytes are written, and no others. -/
theorem writeHalf_eq {a : Word} (h : DUTMemory.inSimMem a = true) (b : Bytes) (wdata : BitVec 16)
    (wmask : BitVec 8) : ∃ b', DUTMemory.writeHalf b a wdata wmask = some b' ∧
      ∀ x, b' x = if (x - a).toNat < 2 ∧ wmask.getLsbD (x - a).toNat then
        halfByte wdata (x - a).toNat else b x := by
  rw [DUTMemory.writeHalf, if_pos h]
  by_cases hmask : wmask = 0
  · refine ⟨b, if_pos hmask, ?_⟩
    intro x
    rw [hmask, if_neg]
    rintro ⟨-, hbit⟩
    rw [BitVec.ofNat_eq_ofNat, BitVec.getLsbD_zero] at hbit
    cases hbit
  · refine ⟨_, if_neg hmask, ?_⟩
    intro x
    have hbytes : ∀ (haddr : Bytes), ∀ i ∈ List.range 2,
        (if wmask.getLsbD i then Function.update haddr (a + BitVec.ofNat 32 i) (halfByte wdata i)
          else haddr) =
        if wmask.getLsbD i then
          Function.update haddr (a + BitVec.ofNat 32 i) (byteOf (wdata.setWidth 32) i)
        else haddr := by
      intro haddr i hi
      rw [halfByte_eq_byteOf wdata (List.mem_range.mp hi)]
    rw [List.foldl_ext _ _ b hbytes, strobe_loop b a _ wmask x 2 (by decide)]
    split_ifs with hx
    · rw [halfByte_eq_byteOf wdata hx.1]
    · rfl

/-! ## The calls -/

/-- A place is read from the array. -/
theorem sdramRead_eq (b : Bytes) (p : Place) : ∃ v, sdramRead b p.addr p.id = some v ∧
    ∀ k : Fin 2, halfByte v k = contents b (p, k) := by
  refine ⟨_, readHalf_eq p.inSimMem b, ?_⟩
  have hbytes := halfByte_append (b (p.npcAddr + 1)) (b p.npcAddr)
  have hzero : p.npcAddr + BitVec.ofNat 32 0 = p.npcAddr := BitVec.add_zero _
  refine Fin.forall_fin_two.mpr ⟨?_, hbytes.2⟩
  rw [contents, Fin.val_zero, hzero]
  exact hbytes.1

/-- **A call of `sdram_write` is a write to the array.** -/
theorem sdramWrite_eq (b : Bytes) (w : Write) : ∃ b',
    sdramWrite b w.place.addr w.data w.mask w.place.id = some b' ∧
      contents b' = LastWrite.apply Write.covers Write.value (contents b) w := by
  obtain ⟨b', hwrite, hbytes⟩ := writeHalf_eq w.place.inSimMem b w.data w.mask
  refine ⟨b', hwrite, ?_⟩
  funext ⟨p, k⟩
  rw [contents, hbytes, LastWrite.apply, Write.covers, Write.value]
  by_cases hp : p = w.place
  · rw [hp, lane_self, decide_eq_true rfl, Bool.true_and]
    exact if_congr (and_iff_right k.isLt) rfl rfl
  · rw [if_neg (fun h => lane_other hp k h.1), decide_eq_false (Ne.symm hp), Bool.false_and]
    rfl

/-- **Calls of `sdram_write` are writes to the array.** -/
theorem writeAll_eq (b : Bytes) (ws : List Write) : ∃ b', writeAll b ws = some b' ∧
    contents b' = LastWrite.applyAll Write.covers Write.value (contents b) ws := by
  induction ws generalizing b with
  | nil => exact ⟨b, rfl, rfl⟩
  | cons w ws ih =>
      obtain ⟨b₁, hw, hcontents₁⟩ := sdramWrite_eq b w
      obtain ⟨b₂, hws, hcontents₂⟩ := ih b₁
      refine ⟨b₂, ?_, ?_⟩
      · rw [writeAll, List.foldlM_cons, hw]
        exact hws
      · rw [hcontents₂, hcontents₁]
        rfl

/-- **The SDRAM is an array of halfwords.**  After any calls of `sdram_write`, none of which
fails, `sdram_read` gives for each byte the data of the last write that enabled it, or what it gave
at first; writes to other places do not matter.  The address is the one that the core has issued. -/
theorem sdram_halfwords (b : Bytes) (ws : List Write) :
    (∃ b', writeAll b ws = some b' ∧ ∀ p : Place, ∃ v v',
      sdramRead b p.addr p.id = some v ∧ sdramRead b' p.addr p.id = some v' ∧
      (∀ k : Fin 2, halfByte v' k = (ws.reverse.find? fun w => w.covers (p, k)).elim
        (halfByte v k) fun w => halfByte w.data k) ∧
      ((∀ w ∈ ws, w.place ≠ p) → v' = v)) ∧
    ∀ o : BitVec 26, convertSdramAddr (splitAddr o) (splitId o) =
      CONFIG_SDRAM_BASE + (o.setWidth 32 &&& ~~~1) := by
  refine ⟨?_, convert_split⟩
  obtain ⟨b', hwrite, hcontents⟩ := writeAll_eq b ws
  refine ⟨b', hwrite, ?_⟩
  intro p
  obtain ⟨v, hv, hbyte⟩ := sdramRead_eq b p
  obtain ⟨v', hv', hbyte'⟩ := sdramRead_eq b' p
  refine ⟨v, v', hv, hv', ?_, ?_⟩
  · intro k
    rw [hbyte', hcontents, LastWrite.applyAll_apply, hbyte]
    rfl
  · intro hother
    apply eq_of_halfByte
    intro k
    rw [hbyte', hcontents, hbyte, LastWrite.applyAll_frame]
    intro w hw
    rw [Write.covers, decide_eq_false (hother w hw), Bool.false_and]

/-- The first halfword. -/
def first : Place := ⟨0, 0, rfl, by decide, by decide⟩

/-- A halfword in another chip. -/
def another : Place := ⟨4, 3, rfl, by decide, by decide⟩

/-- The low byte of one halfword is written, and another halfword is as it was. -/
theorem first_written : ∃ b' v, writeAll (fun _ => 0) [⟨first, 0xabcd, 0b01⟩] = some b' ∧
    sdramRead b' first.addr first.id = some v ∧ halfByte v 0 = 0xcd ∧
    sdramRead b' another.addr another.id =
      sdramRead (fun _ => 0) another.addr another.id := by
  obtain ⟨b', hwrite, hread⟩ := (sdram_halfwords (fun _ => 0) [⟨first, 0xabcd, 0b01⟩]).1
  obtain ⟨_, v, -, hv, hbyte, -⟩ := hread first
  obtain ⟨u, u', hu, hu', -, hother⟩ := hread another
  refine ⟨b', v, hwrite, hv, hbyte 0, ?_⟩
  rw [hu, hu', hother]
  intro w hw
  rw [List.mem_singleton.mp hw]
  decide

end Sdram

end Bailuwan
