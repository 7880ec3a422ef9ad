/-
# The memory map of the core (`Core.scala`)

The ranges given to the crossbar name the first and the last address of every
device, but `addr_mux_map` compares with `lo <= addr && addr < hi`.  The decoding is
therefore the declared memory map at every address but the last one of each range
(`decodedAsDeclared_iff`); that one belongs to the error slave.
-/
import Mathlib.Data.Fin.VecNotation
import Bailuwan.AXI4CrossBar

namespace Bailuwan

open AXI4

namespace Core

/-! ## The declared map -/

/-- The SoC port. -/
def socRanges : List (ℕ × ℕ) :=
  [(0x0f000000, 0x0fffffff),  -- SRAM
   (0x10000000, 0x10000fff),  -- UART16550
   (0x10001000, 0x10001fff),  -- SPI master
   (0x10002000, 0x1000200f),  -- GPIO
   (0x10011000, 0x10011007),  -- PS2
   (0x20000000, 0x20000fff),  -- MROM
   (0x21000000, 0x211fffff),  -- VGA
   (0x30000000, 0x3fffffff),  -- FLASH
   (0x40000000, 0x7fffffff),  -- ChipLink MMIO
   (0x80000000, 0x9fffffff),  -- PSRAM
   (0xa0000000, 0xbfffffff),  -- SDRAM
   (0xc0000000, 0xffffffff)]  -- ChipLink MEM

/-- The ranges of the timer. -/
def clintRanges : List (ℕ × ℕ) := [(0x02000000, 0x0200ffff)]

/-- The slaves are the external port, the timer and the error slave. -/
instance (priority := 3000) slaveNeZero : @NeZero ℕ Zero.ofOfNat0 (2 + 1) := indexNeZero 2

/-- The `slaves_map` of the crossbar in `Core`. -/
def slavesMap : SlavesMap 2 := ![socRanges, clintRanges]

/-- An address lies in one of the declared ranges, both ends included. -/
def DeclaredIn (ranges : List (ℕ × ℕ)) (addr : Word) : Prop :=
  ∃ rng ∈ ranges, rng.1 ≤ addr.toNat ∧ addr.toNat ≤ rng.2

/-- The last address of every declared range. -/
def lastAddrs : List ℕ := (socRanges ++ clintRanges).map Prod.snd

end Core

/-! ## Routing -/

namespace AXI4CrossBar

variable {n : ℕ} (slavesMap : SlavesMap n) (addr : Word) (k : Fin (n + 1))

/-- A read of `addr` that an idle crossbar takes is connected to slave `k` and to no
other one. -/
def RoutesRead : Prop :=
  ∀ (x : AXI4CrossBar n) (master master' : Out) (ext : Fin n → In),
    x.rState = .idle → master.ar.valid = true → master.ar.bits.addr = addr →
    ∀ j, ((x.next slavesMap master ext).slaveOut master' j).ar =
      if j = k then master'.ar else ⟨false, {}⟩

/-- A write of `addr` that an idle crossbar takes is connected to slave `k` and to no
other one, with its address and its data. -/
def RoutesWrite : Prop :=
  ∀ (x : AXI4CrossBar n) (master master' : Out) (ext : Fin n → In),
    x.wState = .idle → master.aw.valid = true → master.aw.bits.addr = addr →
    ∀ j, ((x.next slavesMap master ext).slaveOut master' j).aw =
        (if j = k then master'.aw else ⟨false, {}⟩) ∧
      ((x.next slavesMap master ext).slaveOut master' j).w =
        (if j = k then master'.w else ⟨false, {}⟩)

/-- Reads and writes of `addr` both go to slave `k`. -/
def Routes : Prop := RoutesRead slavesMap addr k ∧ RoutesWrite slavesMap addr k

/-- A crossbar at rest. -/
def rest : AXI4CrossBar n := ⟨.idle, 0, .idle, 0, ⟨.idle, 0, 0, 0, .idle, 0⟩⟩

/-- The routing is the decoding of the address. -/
theorem routes_iff : Routes slavesMap addr k ↔ candidate slavesMap addr = k := by
  constructor
  · rintro ⟨hread, -⟩
    let master : Out := { ar := ⟨true, { addr := addr }⟩ }
    have h := hread rest master master (fun _ => {}) rfl rfl rfl (candidate slavesMap addr)
    have howner : ((rest.next slavesMap master fun _ => {}).slaveOut master
        (candidate slavesMap addr)).ar = master.ar := if_pos ⟨rfl, rfl⟩
    by_contra hne
    rw [howner, if_neg hne] at h
    have hvalid : true = false := congrArg Valid.valid h
    exact absurd hvalid (by decide)
  · rintro rfl
    refine ⟨?_, ?_⟩
    · intro x master master' ext hidle hvalid haddr j
      simp only [slaveOut, next, hidle, hvalid, haddr, and_self, if_true, true_and]
    · intro x master master' ext hidle hvalid haddr j
      simp only [slaveOut, next, hidle, hvalid, haddr, and_self, if_true, true_and]

end AXI4CrossBar

namespace Core

open AXI4CrossBar

/-- Slave 0 gets the SoC ranges, slave 1 those of the CLINT, and slave 2, the error
slave, everything else. -/
structure DecodedAsDeclared (addr : Word) : Prop where
  soc : Routes slavesMap addr 0 ↔ DeclaredIn socRanges addr
  clint : Routes slavesMap addr 1 ↔ DeclaredIn clintRanges addr
  error : Routes slavesMap addr 2 ↔ ¬ DeclaredIn socRanges addr ∧ ¬ DeclaredIn clintRanges addr

/-! ## Where the comparison differs from the declaration -/

/-- The ranges are the declared ones but for their last addresses. -/
theorem addrMatches_iff_declaredIn {ranges : List (ℕ × ℕ)} {addr : Word}
    (h : addr.toNat ∉ ranges.map Prod.snd) :
    addrMatches ranges addr = true ↔ DeclaredIn ranges addr := by
  simp only [addrMatches, List.any_eq_true, Bool.and_eq_true, decide_eq_true_eq, DeclaredIn]
  constructor
  · rintro ⟨rng, hmem, hlo, hhi⟩
    exact ⟨rng, hmem, hlo, hhi.le⟩
  · rintro ⟨rng, hmem, hlo, hhi⟩
    have hne : addr.toNat ≠ rng.2 := fun heq => h (heq ▸ List.mem_map_of_mem hmem)
    exact ⟨rng, hmem, hlo, lt_of_le_of_ne hhi hne⟩

/-- The slave of an address: the first one that has it, or the one for errors. -/
theorem candidate_slavesMap (addr : Word) :
    candidate slavesMap addr =
      if addrMatches socRanges addr then 0 else if addrMatches clintRanges addr then 1 else 2 := by
  have hfin : List.finRange 2 = [0, 1] := by decide
  have h0 : slavesMap 0 = socRanges := rfl
  have h1 : slavesMap 1 = clintRanges := rfl
  simp only [candidate, hfin, List.find?_cons, List.find?_nil, h0, h1]
  cases addrMatches socRanges addr <;> cases addrMatches clintRanges addr <;> rfl

/-- No address is declared twice. -/
theorem not_declaredIn_both {addr : Word} (hs : DeclaredIn socRanges addr)
    (hc : DeclaredIn clintRanges addr) : False := by
  obtain ⟨rs, hmems, hlos, -⟩ := hs
  obtain ⟨rc, hmemc, -, hhic⟩ := hc
  have hlo : ∀ rng ∈ socRanges, 0x0f000000 ≤ rng.1 := by decide
  have hhi : ∀ rng ∈ clintRanges, rng.2 ≤ 0x0200ffff := by decide
  have h1 := hlo rs hmems
  have h2 := hhi rc hmemc
  omega

/-- No range of a port contains the last address of a range of that port. -/
theorem lastAddr_not_matched :
    (∀ last ∈ socRanges.map Prod.snd, addrMatches socRanges (BitVec.ofNat 32 last) = false) ∧
      ∀ last ∈ clintRanges.map Prod.snd,
        addrMatches clintRanges (BitVec.ofNat 32 last) = false := by
  decide

/-- The last address of a range is declared. -/
theorem lastAddr_declared {ranges : List (ℕ × ℕ)} {addr : Word}
    (hle : ∀ rng ∈ ranges, rng.1 ≤ rng.2) (h : addr.toNat ∈ ranges.map Prod.snd) :
    DeclaredIn ranges addr := by
  obtain ⟨rng, hmem, heq⟩ := List.mem_map.mp h
  exact ⟨rng, hmem, heq ▸ hle rng hmem, heq.ge⟩

/-- The addresses that are routed to the memories. -/
theorem routes_soc_iff (addr : Word) :
    Routes slavesMap addr 0 ↔ addrMatches socRanges addr = true := by
  rw [routes_iff, candidate_slavesMap]
  cases addrMatches socRanges addr <;> cases addrMatches clintRanges addr <;> decide

/-- The addresses that are routed to the timer. -/
theorem routes_clint_iff (addr : Word) :
    Routes slavesMap addr 1 ↔
      addrMatches socRanges addr = false ∧ addrMatches clintRanges addr = true := by
  rw [routes_iff, candidate_slavesMap]
  cases addrMatches socRanges addr <;> cases addrMatches clintRanges addr <;> decide

/-- The addresses that are routed to the slave for errors. -/
theorem routes_error_iff (addr : Word) :
    Routes slavesMap addr 2 ↔
      addrMatches socRanges addr = false ∧ addrMatches clintRanges addr = false := by
  rw [routes_iff, candidate_slavesMap]
  cases addrMatches socRanges addr <;> cases addrMatches clintRanges addr <;> decide

/-- **The decoding is the declared memory map exactly off the last addresses.** -/
theorem decodedAsDeclared_iff (addr : Word) :
    DecodedAsDeclared addr ↔ addr.toNat ∉ lastAddrs := by
  have hmem : addr.toNat ∈ lastAddrs ↔
      addr.toNat ∈ socRanges.map Prod.snd ∨ addr.toNat ∈ clintRanges.map Prod.snd := by
    rw [lastAddrs, List.map_append, List.mem_append]
  constructor
  · intro h hlast
    rcases hmem.mp hlast with hs | hc
    · have hroute := h.soc.mpr (lastAddr_declared (by decide) hs)
      have hmiss := lastAddr_not_matched.1 _ hs
      rw [BitVec.ofNat_toNat, BitVec.setWidth_eq] at hmiss
      rw [routes_soc_iff, hmiss] at hroute
      exact absurd hroute (by decide)
    · have hroute := h.clint.mpr (lastAddr_declared (by decide) hc)
      have hmiss := lastAddr_not_matched.2 _ hc
      rw [BitVec.ofNat_toNat, BitVec.setWidth_eq] at hmiss
      rw [routes_clint_iff, hmiss] at hroute
      exact absurd hroute.2 (by decide)
  · intro h
    obtain ⟨hs, hc⟩ := not_or.mp (fun h' => h (hmem.mpr h'))
    have hsoc := addrMatches_iff_declaredIn hs
    have hclint := addrMatches_iff_declaredIn hc
    refine ⟨?_, ?_, ?_⟩
    · rw [routes_soc_iff, hsoc]
    · rw [routes_clint_iff, ← Bool.not_eq_true, hsoc, hclint]
      exact ⟨And.right, fun hd => ⟨fun hd' => not_declaredIn_both hd' hd, hd⟩⟩
    · rw [routes_error_iff, ← Bool.not_eq_true, ← Bool.not_eq_true, hsoc, hclint]

/-- The last byte of the SRAM is declared to be the SoC's and goes to the error slave. -/
theorem sramEnd_not_decodedAsDeclared : ¬ DecodedAsDeclared 0x0fffffff := by
  intro h
  have hroute := h.soc.mpr ⟨(0x0f000000, 0x0fffffff), by decide, by decide, by decide⟩
  rw [routes_soc_iff] at hroute
  exact absurd hroute (by decide)

end Core

end Bailuwan
