/-
# The boot loaders (`riscv/ysyxsoc/start.S`, `linker.ld`)

The processor starts in `_fsbl`, in flash.  It copies the second loader to the place in SRAM for
which it was linked and jumps there; the second loader, which is then executed where the first one
has put it, copies the sections of the program from flash to SDRAM, clears `.bss` and jumps to
`_start`, which is one of the words it has just copied.  In every layout that the linker script
allows, the program is entered with all its sections in place (`loads`).
-/
import Bailuwan.Assembly
import Bailuwan.LastWrite

open StateTransition

namespace Bailuwan

namespace Nemu

namespace Boot

open Asm

def sp : BitVec 5 := 2
def t0 : BitVec 5 := 5
def t1 : BitVec 5 := 6
def t2 : BitVec 5 := 7
def s0 : BitVec 5 := 8
def x10 : BitVec 5 := 10

/-! ## `start.S` -/

/-- The loop of `COPY_SECTION_WORD`. -/
def copyLoop : List Asm := [
  beq t1 t2 24,
  lw x10 0 t0,
  sw x10 0 t1,
  addi t0 t0 4,
  addi t1 t1 4,
  j (-20)]

/-- `COPY_SECTION_WORD`, at line `k`. -/
def COPY_SECTION_WORD (base : Word) (k : ℕ) (src dst stop : Word) : List Asm :=
  la (lineAt base k) t0 src ++ la (lineAt base (k + 2)) t1 dst ++ la (lineAt base (k + 4)) t2 stop ++
    copyLoop

/-- The loop that clears `.bss`. -/
def bssLoop : List Asm := [
  beq t1 t2 16,
  sw 0 0 t1,
  addi t1 t1 4,
  j (-12)]

/-- A section: where it is in flash, where it belongs, and its size. -/
structure Section where
  lma : Word
  vma : Word
  size : ℕ

/-- The symbols of a program. -/
structure Symbols where
  fsbl : Word
  ssbl : Section
  text : Section
  rodata : Section
  data : Section
  bss : Word
  bssSize : ℕ
  stackPointer : Word
  trmInit : Word

/-- The end of a section. -/
def Section.stop (x : Section) : Word := x.vma + BitVec.ofNat 32 x.size

namespace Symbols

variable (y : Symbols)

/-- `_fsbl`: it copies `_ssbl` to the SRAM and jumps there. -/
def fsblCode : List Asm :=
  COPY_SECTION_WORD y.fsbl 0 y.ssbl.lma y.ssbl.vma y.ssbl.stop ++
    la (lineAt y.fsbl 12) t0 y.ssbl.vma ++ [jr t0]

/-- `_ssbl`: it copies the program to the SDRAM, clears `.bss` and jumps to the start. -/
def ssblCode : List Asm :=
  COPY_SECTION_WORD y.ssbl.vma 0 y.text.lma y.text.vma y.text.stop ++
    COPY_SECTION_WORD y.ssbl.vma 12 y.rodata.lma y.rodata.vma y.rodata.stop ++
    COPY_SECTION_WORD y.ssbl.vma 24 y.data.lma y.data.vma y.data.stop ++
    la (lineAt y.ssbl.vma 36) t1 y.bss ++
    la (lineAt y.ssbl.vma 38) t2 (y.bss + BitVec.ofNat 32 y.bssSize) ++ bssLoop ++
    la (lineAt y.ssbl.vma 44) t0 y.text.vma ++ [jr t0]

/-- `_start`: it sets the stack pointer and calls `_trm_init`. -/
def startCode : List Asm :=
  mv s0 0 :: la (lineAt y.text.vma 1) sp y.stackPointer ++
    [auipc 1 (hi20 (y.trmInit - lineAt y.text.vma 3)),
      jalr 1 (lo12 (y.trmInit - lineAt y.text.vma 3)) 1]

end Symbols

/-! ## Copies -/

/-- The memory after `n` bytes have been copied. -/
def loaded (m : Bytes) (src dst : Word) (n : ℕ) : Bytes := fun a =>
  if (a - dst).toNat < n then m (src + (a - dst)) else m a

/-- The memory after `n` bytes have been cleared. -/
def cleared (m : Bytes) (dst : Word) (n : ℕ) : Bytes := fun a =>
  if (a - dst).toNat < n then 0 else m a

theorem loaded_zero (m : Bytes) (src dst : Word) : loaded m src dst 0 = m := by
  funext a
  exact if_neg (Nat.not_lt_zero _)

theorem cleared_zero (m : Bytes) (dst : Word) : cleared m dst 0 = m := by
  funext a
  exact if_neg (Nat.not_lt_zero _)

/-- Zero consists of zero bytes. -/
theorem byteOf_zero (k : ℕ) : byteOf 0 k = 0 := by
  apply BitVec.eq_of_toNat_eq
  rw [toNat_byteOf]
  simp

/-- The position of a byte of the next word. -/
theorem sub_add_ofNat (a dst : Word) {i : ℕ} (hi : i + 4 < 2 ^ 32) :
    (a - (dst + BitVec.ofNat 32 i)).toNat < 4 ↔ i ≤ (a - dst).toNat ∧ (a - dst).toNat < i + 4 := by
  have hpos : (a - (dst + BitVec.ofNat 32 i)).toNat = ((a - dst).toNat + 2 ^ 32 - i) % 2 ^ 32 := by
    rw [BitVec.toNat_sub, BitVec.toNat_sub, BitVec.toNat_add, BitVec.toNat_ofNat]
    have := a.isLt
    have := dst.isLt
    omega
  have := (a - dst).isLt
  rw [hpos]
  omega

/-- A word of a range is in the range. -/
theorem span_mono_add {src : Word} {i n : ℕ} (hi : i + 4 ≤ n) (hn : n < 2 ^ 32) :
    span (src + BitVec.ofNat 32 i) 4 ⊆ span src n := by
  intro a ha
  rw [mem_span, sub_add_ofNat a src (by omega)] at ha
  rw [mem_span]
  omega

/-- **One word is copied.** -/
theorem write_loaded {m : Bytes} {src dst : Word} {i n : ℕ} (hi : i + 4 ≤ n) (hn : n < 2 ^ 32)
    (hdisj : Disjoint (span src n) (span dst n)) :
    write (loaded m src dst i) (dst + BitVec.ofNat 32 i) 4
      (wordAt (loaded m src dst i) (src + BitVec.ofNat 32 i)) = loaded m src dst (i + 4) := by
  have hword : wordAt (loaded m src dst i) (src + BitVec.ofNat 32 i) =
      wordAt m (src + BitVec.ofNat 32 i) := by
    refine wordAt_congr fun a ha => if_neg fun hlt => ?_
    refine Set.disjoint_left.mp hdisj (span_mono_add hi hn ha) ?_
    rw [mem_span]
    omega
  funext a
  rw [hword, write, loaded, loaded]
  by_cases hin : (a - (dst + BitVec.ofNat 32 i)).toNat < 4
  · have hpos := (sub_add_ofNat a dst (by omega)).mp hin
    rw [if_pos hin, if_pos hpos.2, byteOf_wordAt _ _ hin, BitVec.ofNat_toNat, BitVec.setWidth_eq]
    congr 1
    ring
  · rw [if_neg hin]
    rw [sub_add_ofNat a dst (by omega)] at hin
    by_cases hlt : (a - dst).toNat < i
    · rw [if_pos hlt, if_pos (by omega)]
    · rw [if_neg hlt, if_neg (by omega)]

/-- One word is cleared. -/
theorem write_cleared {m : Bytes} {dst : Word} {i : ℕ} (hi : i + 4 < 2 ^ 32) :
    write (cleared m dst i) (dst + BitVec.ofNat 32 i) 4 0 = cleared m dst (i + 4) := by
  funext a
  rw [write, cleared, cleared]
  by_cases hin : (a - (dst + BitVec.ofNat 32 i)).toNat < 4
  · rw [if_pos hin, if_pos ((sub_add_ofNat a dst hi).mp hin).2, byteOf_zero]
  · rw [if_neg hin]
    rw [sub_add_ofNat a dst hi] at hin
    by_cases hlt : (a - dst).toNat < i
    · rw [if_pos hlt, if_pos (by omega)]
    · rw [if_neg hlt, if_neg (by omega)]

/-! ## The loops -/

/-- The machine is at a line of a program. -/
structure At (base : Word) (k : ℕ) (m : Bytes) (s : CPU) : Prop where
  pc : s.pc = lineAt base k
  mem : s.mem = m
  zero : s.gpr 0 = 0

section Runs

variable {base src dst : Word} {code : List Asm} {k n : ℕ} {m : Bytes} {s : CPU}
  {Q : CPU → Prop}

/-- One instruction of the code is executed. -/
theorem At.next {a : Asm} (h : At base k m s) (hc : CodeAt m base code) (ha : code[k]? = some a)
    (hgo : a.Continues) (hL : Leads CPU.step (a.exec s) Q) : Leads CPU.step s Q :=
  CodeAt.next (h.mem ▸ hc) h.pc ha hgo hL

/-- An assignment leads to the next line and leaves memory. -/
theorem At.assign (h : At base k m s) (r : BitVec 5) (v : Word) :
    At base (k + 1) m (s.assign r v) where
  pc := by
    rw [CPU.pc_assign, h.pc]
    exact lineAt_add_four base k
  mem := h.mem
  zero := CPU.gpr_assign

/-- A branch that is taken leads to its line. -/
theorem At.goto (h : At base k m s) {l : ℕ} {pc : Word} (hpc : pc = lineAt base l) :
    At base l m (s.goto pc) where
  pc := hpc
  mem := h.mem
  zero := CPU.gpr_goto

/-- A store leads to the next line. -/
theorem At.put (h : At base k m s) (addr : Word) (len : ℕ) (v : Word) :
    At base (k + 1) (write m addr len v) (s.put addr len v) where
  pc := by
    rw [CPU.pc_put, h.pc]
    exact lineAt_add_four base k
  mem := by rw [CPU.mem_put, h.mem]
  zero := CPU.gpr_put

/-- A jump may lead into other code. -/
theorem At.jump (h : At base k m s) {b pc : Word} {l : ℕ} (hpc : pc = lineAt b l) :
    At b l m (s.link 0 pc) where
  pc := hpc
  mem := h.mem
  zero := CPU.gpr_link

/-- The address of a symbol is loaded. -/
theorem At.address {r : BitVec 5} {symbol : Word} (h : At base k m s) (hc : CodeAt m base code)
    (hla : la (lineAt base k) r symbol <+: code.drop k) (hr : r ≠ 0)
    (hL : ∀ t, At base (k + 2) m t → t.gpr r = symbol → (∀ q, q ≠ r → q ≠ 0 → t.gpr q = s.gpr q) →
      Leads CPU.step t Q) : Leads CPU.step s Q := by
  have hmem : ∀ a ∈ la (lineAt base k) r symbol, ∀ t : CPU, t.mem = m → (a.exec t).mem = m := by
    intro a ha t ht
    simp only [la, List.mem_cons, List.not_mem_nil, or_false] at ha
    rcases ha with rfl | rfl <;> exact ht
  refine CodeAt.block (fun t => t.mem = m) (fun _ _ _ _ => rfl) (fun t ht => ht ▸ hc) hla
    straight_la hmem h.pc h.mem ?_
  intro hpc hm
  rw [← h.pc] at hpc hm ⊢
  refine hL _ ⟨hpc, hm, ?_⟩ (gpr_la symbol hr) fun q hq h0 => ?_
  · rw [gpr_la_of_ne hr.symm, if_pos rfl]
  · rw [gpr_la_of_ne hq, if_neg h0]

/-- The addresses of a copy. -/
structure Copying (src dst : Word) (n i : ℕ) (s : CPU) : Prop where
  t0 : s.gpr t0 = src + BitVec.ofNat 32 i
  t1 : s.gpr t1 = dst + BitVec.ofNat 32 i
  t2 : s.gpr t2 = dst + BitVec.ofNat 32 n

/-- Where code is that is not written to. -/
theorem codeAt_of_disjoint {m m' : Bytes} {as : Set Word} (hc : CodeAt m base code)
    (hout : Disjoint (span base (4 * code.length)) as) (hframe : ∀ a ∉ as, m' a = m a) :
    CodeAt m' base code :=
  hc.congr fun a ha => hframe a (Set.disjoint_left.mp hout ha)

/-- A copy changes its destination only. -/
theorem loaded_frame {i n : ℕ} (hi : i ≤ n) {a : Word} (ha : a ∉ span dst n) :
    loaded m src dst i a = m a := by
  refine if_neg fun hlt => ha ?_
  rw [mem_span]
  omega

/-- Clearing changes its destination only. -/
theorem cleared_frame {i n : ℕ} (hi : i ≤ n) {a : Word} (ha : a ∉ span dst n) :
    cleared m dst i a = m a := by
  refine if_neg fun hlt => ha ?_
  rw [mem_span]
  omega

/-- An instruction of a piece of a program. -/
theorem getElem?_of_drop {as : List Asm} (h : as <+: code.drop k) {i : ℕ} (hi : i < as.length) :
    code[k + i]? = some (as[i]) := by
  obtain ⟨rest, hrest⟩ := h
  rw [← List.getElem?_drop, ← hrest, List.getElem?_append_left hi, List.getElem?_eq_getElem hi]

/-- The pointer of a loop is at its end only there. -/
theorem ofNat_ne {i n : ℕ} (hi : i < n) (hn : n < 2 ^ 32) :
    dst + BitVec.ofNat 32 i ≠ dst + BitVec.ofNat 32 n := by
  intro h
  have htoNat := congrArg BitVec.toNat ((BitVec.add_right_inj dst).mp h)
  rw [BitVec.toNat_ofNat, BitVec.toNat_ofNat] at htoNat
  omega

/-- The distance to a later line. -/
theorem offset_add (k d : ℕ) : offset k (k + d) = BitVec.ofInt 32 (4 * d) := by
  rw [offset]
  congr 1
  push_cast
  ring

/-- The distance to an earlier line. -/
theorem offset_sub (k d : ℕ) : offset (k + d) k = BitVec.ofInt 32 (-(4 * d)) := by
  rw [offset]
  congr 1
  push_cast
  ring

theorem add_four (b : Word) (i : ℕ) :
    b + BitVec.ofNat 32 i + 4 = b + BitVec.ofNat 32 (i + 4) := by
  rw [BitVec.add_assoc, BitVec.ofNat_add]
  rfl

/-- An instruction of a loop. -/
theorem At.loop {as : List Asm} (h : as <+: code.drop k) (has : ∀ a ∈ as, a.Continues) {i : ℕ}
    (hi : i < as.length) (hat : At base (k + i) m s) (hc : CodeAt m base code)
    (hL : Leads CPU.step ((as[i]).exec s) Q) : Leads CPU.step s Q :=
  hat.next hc (getElem?_of_drop h hi) (has _ (List.getElem_mem hi)) hL

theorem continues_copyLoop : ∀ a ∈ copyLoop, a.Continues := by
  decide +kernel

theorem continues_bssLoop : ∀ a ∈ bssLoop, a.Continues := by
  decide +kernel

/-- **One turn** copies a word. -/
theorem leads_copyTurn {i : ℕ} (hloop : copyLoop <+: code.drop k) (hi : i + 4 ≤ n)
    (hn : n < 2 ^ 32) (hdisj : Disjoint (span src n) (span dst n))
    (hc : CodeAt (loaded m src dst i) base code) (hc' : CodeAt (loaded m src dst (i + 4)) base code)
    (hat : At base k (loaded m src dst i) s) (hs : Copying src dst n i s) :
    Leads CPU.step s fun t =>
      At base k (loaded m src dst (i + 4)) t ∧ Copying src dst n (i + 4) t := by
  obtain ⟨h0, h1, h2⟩ := hs
  generalize hv : wordAt (loaded m src dst i) (src + BitVec.ofNat 32 i) = v
  have hwrite : write (loaded m src dst i) (dst + BitVec.ofNat 32 i) 4 v =
      loaded m src dst (i + 4) := hv ▸ write_loaded hi hn hdisj
  refine hat.loop hloop continues_copyLoop (i := 0) (by decide) hc ?_
  change Leads CPU.step ((beq t1 t2 24).exec s) _
  rw [exec_beq, h1, h2, if_neg (ofNat_ne (by omega) hn)]
  have hpc1 : s.pc + 4 = lineAt base (k + 1) := hat.pc ▸ lineAt_add_four base k
  have hat1 := hat.goto hpc1
  generalize hu1 : s.goto (s.pc + 4) = u1 at hat1 ⊢
  have hgpr1 : ∀ r, r ≠ 0 → u1.gpr r = s.gpr r := by
    intro r hr
    rw [← hu1, CPU.gpr_goto, if_neg hr]
  refine hat1.loop hloop continues_copyLoop (i := 1) (by decide) hc ?_
  change Leads CPU.step ((lw x10 0 t0).exec u1) _
  rw [exec_lw, read_four, hgpr1 t0 (by decide), h0, hat1.mem, add_zero, hv]
  have hat2 := hat1.assign x10 v
  generalize hu2 : u1.assign x10 v = u2 at hat2 ⊢
  have hx10 : u2.gpr x10 = v := by
    rw [← hu2, CPU.gpr_assign, if_neg (by decide), if_pos rfl]
  have hgpr2 : ∀ r, r ≠ 0 → r ≠ x10 → u2.gpr r = s.gpr r := by
    intro r hr hx
    rw [← hu2, CPU.gpr_assign, if_neg hr, if_neg hx, hgpr1 r hr]
  refine hat2.loop hloop continues_copyLoop (i := 2) (by decide) hc ?_
  change Leads CPU.step ((sw x10 0 t1).exec u2) _
  rw [exec_sw, hgpr2 t1 (by decide) (by decide), h1, add_zero, hx10]
  have hat3 := hat2.put (dst + BitVec.ofNat 32 i) 4 v
  rw [hwrite] at hat3
  generalize hu3 : u2.put (dst + BitVec.ofNat 32 i) 4 v = u3 at hat3 ⊢
  have hgpr3 : ∀ r, r ≠ 0 → r ≠ x10 → u3.gpr r = s.gpr r := by
    intro r hr hx
    rw [← hu3, CPU.gpr_put, if_neg hr, hgpr2 r hr hx]
  refine hat3.loop hloop continues_copyLoop (i := 3) (by decide) hc' ?_
  change Leads CPU.step ((addi t0 t0 4).exec u3) _
  rw [exec_addi, hgpr3 t0 (by decide) (by decide), h0]
  have hat4 := hat3.assign t0 (src + BitVec.ofNat 32 i + 4)
  refine hat4.loop hloop continues_copyLoop (i := 4) (by decide) hc' ?_
  change Leads CPU.step ((addi t1 t1 4).exec _) _
  rw [exec_addi, CPU.gpr_assign, if_neg (by decide), if_neg (by decide),
    hgpr3 t1 (by decide) (by decide), h1]
  have hat5 := hat4.assign t1 (dst + BitVec.ofNat 32 i + 4)
  refine hat5.loop hloop continues_copyLoop (i := 5) (by decide) hc' ?_
  change Leads CPU.step ((j (-20)).exec _) _
  rw [j, exec_jal]
  have hoffset : (-20 : Word) = offset (k + 5) k := (offset_sub k 5).symm
  refine Leads.done ⟨hat5.jump ?_, ?_, ?_, ?_⟩
  · rw [hat5.pc, hoffset]
    exact lineAt_add_offset base (k + 5) k
  · rw [CPU.gpr_link, if_neg (by decide), if_neg (by decide), CPU.gpr_assign, if_neg (by decide),
      if_neg (by decide), CPU.gpr_assign, if_neg (by decide), if_pos rfl, add_four]
  · rw [CPU.gpr_link, if_neg (by decide), if_neg (by decide), CPU.gpr_assign, if_neg (by decide),
      if_pos rfl, add_four]
  · rw [CPU.gpr_link, if_neg (by decide), if_neg (by decide), CPU.gpr_assign, if_neg (by decide),
      if_neg (by decide), CPU.gpr_assign, if_neg (by decide), if_neg (by decide),
      hgpr3 t2 (by decide) (by decide), h2]

/-- **The loop copies a section**, word by word. -/
theorem leads_copyLoop (hc : CodeAt m base code) (hloop : copyLoop <+: code.drop k)
    (hn : n < 2 ^ 32) (hmod : n % 4 = 0) (hdisj : Disjoint (span src n) (span dst n))
    (hout : Disjoint (span base (4 * code.length)) (span dst n)) (h : At base k m s)
    (hs : Copying src dst n 0 s) :
    Leads CPU.step s (At base (k + 6) (loaded m src dst n)) := by
  have hcode : ∀ i ≤ n, CodeAt (loaded m src dst i) base code :=
    fun i hi => codeAt_of_disjoint hc hout fun a ha => loaded_frame hi ha
  have hall : Leads CPU.step s fun t => At base k (loaded m src dst (4 * (n / 4))) t ∧
      Copying src dst n (4 * (n / 4)) t := by
    refine Leads.count (I := fun i t => At base k (loaded m src dst (4 * i)) t ∧
      Copying src dst n (4 * i) t) ?_ ⟨by rwa [Nat.mul_zero, loaded_zero], hs⟩
    rintro i hi t ⟨hat, ht⟩
    have hlt : 4 * i + 4 ≤ n := by omega
    exact leads_copyTurn (i := 4 * i) hloop hlt hn hdisj (hcode (4 * i) (by omega))
      (hcode (4 * i + 4) hlt) hat ht
  rw [show 4 * (n / 4) = n by omega] at hall
  refine hall.bind ?_
  rintro t ⟨hat, -, h1, h2⟩
  refine hat.loop hloop continues_copyLoop (i := 0) (by decide) (hcode n le_rfl) (Leads.done ?_)
  change At base (k + 6) _ ((beq t1 t2 24).exec t)
  rw [exec_beq, h1, h2, if_pos rfl]
  have hoffset : (24 : Word) = offset k (k + 6) := (offset_add k 6).symm
  refine hat.goto ?_
  rw [hat.pc, hoffset]
  exact lineAt_add_offset base k (k + 6)

/-- One turn clears a word. -/
theorem leads_bssTurn {i : ℕ} (hloop : bssLoop <+: code.drop k) (hi : i + 4 ≤ n) (hn : n < 2 ^ 32)
    (hc : CodeAt (cleared m dst i) base code) (hc' : CodeAt (cleared m dst (i + 4)) base code)
    (hat : At base k (cleared m dst i) s) (h1 : s.gpr t1 = dst + BitVec.ofNat 32 i)
    (h2 : s.gpr t2 = dst + BitVec.ofNat 32 n) :
    Leads CPU.step s fun t => At base k (cleared m dst (i + 4)) t ∧
      t.gpr t1 = dst + BitVec.ofNat 32 (i + 4) ∧ t.gpr t2 = dst + BitVec.ofNat 32 n := by
  refine hat.loop hloop continues_bssLoop (i := 0) (by decide) hc ?_
  change Leads CPU.step ((beq t1 t2 16).exec s) _
  rw [exec_beq, h1, h2, if_neg (ofNat_ne (by omega) hn)]
  have hpc1 : s.pc + 4 = lineAt base (k + 1) := hat.pc ▸ lineAt_add_four base k
  have hat1 := hat.goto hpc1
  generalize hu1 : s.goto (s.pc + 4) = u1 at hat1 ⊢
  have hgpr1 : ∀ r, r ≠ 0 → u1.gpr r = s.gpr r := by
    intro r hr
    rw [← hu1, CPU.gpr_goto, if_neg hr]
  refine hat1.loop hloop continues_bssLoop (i := 1) (by decide) hc ?_
  change Leads CPU.step ((sw 0 0 t1).exec u1) _
  rw [exec_sw, hgpr1 t1 (by decide), h1, add_zero, hat1.zero]
  have hat2 := hat1.put (dst + BitVec.ofNat 32 i) 4 0
  rw [write_cleared (by omega)] at hat2
  refine hat2.loop hloop continues_bssLoop (i := 2) (by decide) hc' ?_
  change Leads CPU.step ((addi t1 t1 4).exec _) _
  rw [exec_addi, CPU.gpr_put, if_neg (by decide), hgpr1 t1 (by decide), h1]
  have hat3 := hat2.assign t1 (dst + BitVec.ofNat 32 i + 4)
  refine hat3.loop hloop continues_bssLoop (i := 3) (by decide) hc' ?_
  change Leads CPU.step ((j (-12)).exec _) _
  rw [j, exec_jal]
  have hoffset : (-12 : Word) = offset (k + 3) k := (offset_sub k 3).symm
  refine Leads.done ⟨hat3.jump ?_, ?_, ?_⟩
  · rw [hat3.pc, hoffset]
    exact lineAt_add_offset base (k + 3) k
  · rw [CPU.gpr_link, if_neg (by decide), if_neg (by decide), CPU.gpr_assign, if_neg (by decide),
      if_pos rfl, add_four]
  · rw [CPU.gpr_link, if_neg (by decide), if_neg (by decide), CPU.gpr_assign, if_neg (by decide),
      if_neg (by decide), CPU.gpr_put, if_neg (by decide), hgpr1 t2 (by decide), h2]

/-- **The loop clears `.bss`**. -/
theorem leads_bssLoop (hc : CodeAt m base code) (hloop : bssLoop <+: code.drop k)
    (hn : n < 2 ^ 32) (hmod : n % 4 = 0)
    (hout : Disjoint (span base (4 * code.length)) (span dst n)) (h : At base k m s)
    (h1 : s.gpr t1 = dst) (h2 : s.gpr t2 = dst + BitVec.ofNat 32 n) :
    Leads CPU.step s (At base (k + 4) (cleared m dst n)) := by
  have hcode : ∀ i ≤ n, CodeAt (cleared m dst i) base code :=
    fun i hi => codeAt_of_disjoint hc hout fun a ha => cleared_frame hi ha
  have hall : Leads CPU.step s fun t => At base k (cleared m dst (4 * (n / 4))) t ∧
      t.gpr t1 = dst + BitVec.ofNat 32 (4 * (n / 4)) ∧ t.gpr t2 = dst + BitVec.ofNat 32 n := by
    refine Leads.count (I := fun i t => At base k (cleared m dst (4 * i)) t ∧
      t.gpr t1 = dst + BitVec.ofNat 32 (4 * i) ∧ t.gpr t2 = dst + BitVec.ofNat 32 n) ?_
      ⟨by rwa [Nat.mul_zero, cleared_zero], h1.trans (add_zero dst).symm, h2⟩
    rintro i hi t ⟨hat, ht1, ht2⟩
    have hlt : 4 * i + 4 ≤ n := by omega
    exact leads_bssTurn (i := 4 * i) hloop hlt hn (hcode (4 * i) (by omega))
      (hcode (4 * i + 4) hlt) hat ht1 ht2
  rw [show 4 * (n / 4) = n by omega] at hall
  refine hall.bind ?_
  rintro t ⟨hat, ht1, ht2⟩
  refine hat.loop hloop continues_bssLoop (i := 0) (by decide) (hcode n le_rfl) (Leads.done ?_)
  change At base (k + 4) _ ((beq t1 t2 16).exec t)
  rw [exec_beq, ht1, ht2, if_pos rfl]
  have hoffset : (16 : Word) = offset k (k + 4) := (offset_add k 4).symm
  refine hat.goto ?_
  rw [hat.pc, hoffset]
  exact lineAt_add_offset base k (k + 4)

/-- **`COPY_SECTION_WORD`** -/
theorem leads_COPY_SECTION_WORD (hc : CodeAt m base code)
    (hcopy : COPY_SECTION_WORD base k src dst (dst + BitVec.ofNat 32 n) <+: code.drop k)
    (hn : n < 2 ^ 32) (hmod : n % 4 = 0) (hdisj : Disjoint (span src n) (span dst n))
    (hout : Disjoint (span base (4 * code.length)) (span dst n)) (h : At base k m s) :
    Leads CPU.step s (At base (k + 12) (loaded m src dst n)) := by
  obtain ⟨hrest, hloop⟩ := prefix_pieces hcopy
  obtain ⟨hrest, hstop⟩ := prefix_pieces hrest
  obtain ⟨hsrc, hdst⟩ := prefix_pieces hrest
  refine h.address hc hsrc (by decide) fun t ht h0 _ => ?_
  refine ht.address hc hdst (by decide) fun u hu h1 hkeep => ?_
  refine hu.address hc hstop (by decide) fun v hv h2 hkeep' => ?_
  refine leads_copyLoop hc hloop hn hmod hdisj hout hv ⟨?_, ?_, h2⟩
  · rw [hkeep' t0 (by decide) (by decide), hkeep t0 (by decide) (by decide), h0]
    exact (add_zero src).symm
  · rw [hkeep' t1 (by decide) (by decide), h1]
    exact (add_zero dst).symm

/-- A jump to the address in `t0`. -/
theorem At.leave {entry : Word} (h : At base k m s) (hc : CodeAt m base code)
    (hla : la (lineAt base k) t0 entry <+: code.drop k) (hjr : code[k + 2]? = some (jr t0))
    (heven : entry.toNat % 2 = 0) : Leads CPU.step s (At entry 0 m) := by
  refine h.address hc hla (by decide) fun t ht h0 _ => ?_
  refine ht.next hc hjr (by decide +kernel) (Leads.done ?_)
  rw [jr, exec_jalr, h0, add_zero]
  exact ht.jump ((and_not_one heven).trans (lineAt_zero entry).symm)

end Runs

/-! ## Layouts -/

/-- The flash of `linker.ld`. -/
def flash : Set Word := span 0x30000000 (2 ^ 24)

/-- The SRAM, where `_ssbl` is copied to. -/
def sram : Set Word := span 0x0f000000 (2 ^ 13)

/-- The SDRAM, where the program is copied to. -/
def sdram : Set Word := span 0xa0000000 (2 ^ 27)

/-- A section of the script, in one of the memories and loaded from flash. -/
structure Section.Placed (x : Section) (region : Set Word) : Prop where
  lma : span x.lma x.size ⊆ flash
  vma : span x.vma x.size ⊆ region
  align : x.vma.toNat % 8 = 0
  size_align : x.size % 8 = 0
  size_lt : x.size < 2 ^ 32

/-- What the linker script makes sure of. -/
structure Symbols.Layout (y : Symbols) : Prop where
  fsbl : span y.fsbl (4 * 15) ⊆ flash
  ssbl : y.ssbl.Placed sram
  text : y.text.Placed sdram
  rodata : y.rodata.Placed sdram
  data : y.data.Placed sdram
  bss : span y.bss y.bssSize ⊆ sdram
  bss_align : y.bssSize % 8 = 0
  bss_lt : y.bssSize < 2 ^ 32
  text_rodata : Disjoint (span y.text.vma y.text.size) (span y.rodata.vma y.rodata.size)
  text_data : Disjoint (span y.text.vma y.text.size) (span y.data.vma y.data.size)
  rodata_data : Disjoint (span y.rodata.vma y.rodata.size) (span y.data.vma y.data.size)
  text_bss : Disjoint (span y.text.vma y.text.size) (span y.bss y.bssSize)
  rodata_bss : Disjoint (span y.rodata.vma y.rodata.size) (span y.bss y.bssSize)
  data_bss : Disjoint (span y.data.vma y.data.size) (span y.bss y.bssSize)
  ssbl_size : 4 * 47 ≤ y.ssbl.size
  text_size : 4 * 5 ≤ y.text.size
  trmInit : y.trmInit.toNat % 2 = 0

/-- The code is in flash, where it is loaded from. -/
structure Symbols.Image (y : Symbols) (m : Bytes) : Prop where
  fsbl : CodeAt m y.fsbl y.fsblCode
  ssbl : CodeAt m y.ssbl.lma y.ssblCode
  start : CodeAt m y.text.lma y.startCode

/-- The sections in the order in which they are loaded. -/
def Symbols.sections (y : Symbols) : List Section := [y.ssbl, y.text, y.rodata, y.data]

/-- The program is entered with its sections in place. -/
structure Symbols.Entered (y : Symbols) (m : Bytes) (t : CPU) : Prop where
  pc : t.pc = y.trmInit
  sp : t.gpr sp = y.stackPointer
  s0 : t.gpr s0 = 0
  sections : ∀ x ∈ y.sections, ∀ a ∈ span x.vma x.size, t.mem a = m (x.lma + (a - x.vma))
  bss : ∀ a ∈ span y.bss y.bssSize, t.mem a = 0
  frame : ∀ a, (∀ x ∈ y.sections, a ∉ span x.vma x.size) → a ∉ span y.bss y.bssSize →
    t.mem a = m a

/-- The memories do not overlap. -/
theorem disjoint_regions : Disjoint sram flash ∧ Disjoint sdram flash ∧ Disjoint sram sdram :=
  ⟨disjoint_span (by decide) (by decide), disjoint_span (by decide) (by decide),
    disjoint_span (by decide) (by decide)⟩

/-! ### Sections as writes -/

/-- The section has the address. -/
def Section.covers (x : Section) (a : Word) : Bool := decide ((a - x.vma).toNat < x.size)

/-- What it has there. -/
def Section.value (m : Bytes) (x : Section) (a : Word) : BitVec 8 := m (x.lma + (a - x.vma))

/-- The memory after some sections have been loaded. -/
def loadAll (m : Bytes) (xs : List Section) : Bytes :=
  LastWrite.applyAll Section.covers (Section.value m) m xs

/-- The bytes of a section are those of its place. -/
theorem Section.covers_iff {x : Section} {a : Word} : x.covers a = true ↔ a ∈ span x.vma x.size :=
  decide_eq_true_iff

/-- Loading changes the places of the sections only. -/
theorem loadAll_frame {m : Bytes} {xs : List Section} {a : Word}
    (h : ∀ x ∈ xs, a ∉ span x.vma x.size) : loadAll m xs a = m a :=
  LastWrite.applyAll_frame fun x hx =>
    Bool.eq_false_iff.mpr fun hc => h x hx (Section.covers_iff.mp hc)

/-- One more section, loaded from a flash that has not changed. -/
theorem loaded_loadAll {m : Bytes} {xs : List Section} {x : Section}
    (hxs : ∀ u ∈ xs, Disjoint (span u.vma u.size) flash) (hx : span x.lma x.size ⊆ flash) :
    loaded (loadAll m xs) x.lma x.vma x.size = loadAll m (xs ++ [x]) := by
  funext a
  rw [loadAll, loadAll, LastWrite.applyAll_concat, loaded, LastWrite.apply, Section.covers]
  by_cases ha : (a - x.vma).toNat < x.size
  · rw [if_pos ha, if_pos (decide_eq_true ha)]
    refine loadAll_frame fun u hu hin => Set.disjoint_left.mp (hxs u hu) hin (hx ?_)
    exact add_mem_span.mpr ha
  · rw [if_neg ha, if_neg (by simpa using ha)]

/-- **Every section is in place**, if no two overlap. -/
theorem loadAll_section {m : Bytes} {xs : List Section} {x : Section} (hx : x ∈ xs)
    (hpair : xs.Pairwise fun x u => Disjoint (span x.vma x.size) (span u.vma u.size)) {a : Word}
    (ha : a ∈ span x.vma x.size) : loadAll m xs a = m (x.lma + (a - x.vma)) := by
  refine LastWrite.applyAll_of_covers hx (Section.covers_iff.mpr ha) fun u hu hc => ?_
  by_contra hne
  have : Std.Symm fun x u : Section => Disjoint (span x.vma x.size) (span u.vma u.size) :=
    ⟨fun _ _ h => h.symm⟩
  exact Set.disjoint_left.mp (hpair.forall hu hx hne) (Section.covers_iff.mp hc) ha

/-- The code in a section that has been loaded. -/
theorem codeAt_loaded {m m' : Bytes} {x : Section} {code : List Asm} (hc : CodeAt m x.lma code)
    (hlen : 4 * code.length ≤ x.size) (hlt : x.size < 2 ^ 32)
    (hx : ∀ a ∈ span x.vma x.size, m' a = m (x.lma + (a - x.vma))) : CodeAt m' x.vma code := by
  intro k a ha
  have hk : k < code.length := (List.getElem?_eq_some_iff.mp ha).1
  refine wordAt_of_bytes fun j hj => ?_
  have hpos : ∀ b : Word, b + BitVec.ofNat 32 (4 * k) + BitVec.ofNat 32 j =
      b + BitVec.ofNat 32 (4 * k + j) := by
    intro b
    rw [BitVec.add_assoc, BitVec.ofNat_add]
  have hmem : x.vma + BitVec.ofNat 32 (4 * k + j) ∈ span x.vma x.size := by
    rw [add_mem_span, BitVec.toNat_ofNat]
    omega
  rw [hpos, hx _ hmem, BitVec.add_comm x.vma, BitVec.add_sub_cancel, ← hpos, ← byteOf_wordAt m _ hj,
    hc k a ha]

namespace Symbols.Layout

variable {y : Symbols}

/-- No two sections overlap. -/
theorem pairwise (h : y.Layout) :
    y.sections.Pairwise fun x u => Disjoint (span x.vma x.size) (span u.vma u.size) := by
  have hram : ∀ {x : Section}, x.Placed sdram →
      Disjoint (span y.ssbl.vma y.ssbl.size) (span x.vma x.size) :=
    fun hx => disjoint_regions.2.2.mono h.ssbl.vma hx.vma
  simp only [sections, List.pairwise_cons, List.mem_cons, List.not_mem_nil, or_false,
    List.Pairwise.nil, forall_eq_or_imp, forall_eq, false_imp_iff, implies_true, and_true]
  exact ⟨⟨hram h.text, hram h.rodata, hram h.data⟩, ⟨h.text_rodata, h.text_data⟩, h.rodata_data⟩

/-- The sections are not in flash. -/
theorem not_flash (h : y.Layout) : ∀ x ∈ y.sections, Disjoint (span x.vma x.size) flash := by
  have hram : ∀ {x : Section}, x.Placed sdram → Disjoint (span x.vma x.size) flash :=
    fun hx => disjoint_regions.2.1.mono_left hx.vma
  intro x hx
  simp only [sections, List.mem_cons, List.not_mem_nil, or_false] at hx
  rcases hx with rfl | rfl | rfl | rfl
  · exact disjoint_regions.1.mono_left h.ssbl.vma
  · exact hram h.text
  · exact hram h.rodata
  · exact hram h.data

/-- The second loader, once it is loaded. -/
theorem codeAt_ssbl (h : y.Layout) {m : Bytes} (hm : y.Image m) {xs : List Section}
    (hxs : xs.Sublist y.sections) (hmem : y.ssbl ∈ xs) :
    CodeAt (loadAll m xs) y.ssbl.vma y.ssblCode :=
  codeAt_loaded hm.ssbl h.ssbl_size h.ssbl.size_lt fun _ ha =>
    loadAll_section hmem (h.pairwise.sublist hxs) ha

/-- One section is loaded by a loader. -/
theorem leads_section (h : y.Layout) {m : Bytes} {base : Word} {code : List Asm} {k : ℕ}
    (xs : List Section) {x : Section} {region : Set Word} {s : CPU} (hx : x.Placed region)
    (hc : CodeAt (loadAll m xs) base code)
    (hcopy : COPY_SECTION_WORD base k x.lma x.vma x.stop <+: code.drop k)
    (hxs : ∀ u ∈ xs, u ∈ y.sections) (hmem : x ∈ y.sections)
    (hout : Disjoint (span base (4 * code.length)) (span x.vma x.size))
    (hat : At base k (loadAll m xs) s) :
    Leads CPU.step s (At base (k + 12) (loadAll m (xs ++ [x]))) := by
  have hmod := hx.size_align
  rw [← loaded_loadAll (fun u hu => h.not_flash u (hxs u hu)) hx.lma]
  exact leads_COPY_SECTION_WORD hc hcopy hx.size_lt (by omega)
    ((h.not_flash x hmem).symm.mono_left hx.lma) hout hat

/-- **The first loader** loads the second one and jumps to it. -/
theorem leads_fsbl (h : y.Layout) {m : Bytes} (hm : y.Image m) {s : CPU} (hat : At y.fsbl 0 m s) :
    Leads CPU.step s (At y.ssbl.vma 0 (loadAll m [y.ssbl])) := by
  obtain ⟨hcopy, hjr⟩ := prefix_pieces (show _ ++ _ <+: y.fsblCode.drop 0 from List.prefix_rfl)
  obtain ⟨hcopy, hla⟩ := prefix_pieces hcopy
  have hmem : y.ssbl ∈ y.sections := List.mem_cons_self
  have hflash : Disjoint (span y.fsbl (4 * y.fsblCode.length)) (span y.ssbl.vma y.ssbl.size) :=
    (h.not_flash _ hmem).symm.mono_left h.fsbl
  refine (leads_section h [] h.ssbl hm.fsbl hcopy (by simp) hmem hflash hat).bind ?_
  intro t ht
  have hc : CodeAt (loadAll m [y.ssbl]) y.fsbl y.fsblCode := by
    refine codeAt_of_disjoint hm.fsbl hflash fun a ha => loadAll_frame fun x hx => ?_
    rwa [List.mem_singleton.mp hx]
  have halign := h.ssbl.align
  exact ht.leave hc hla rfl (by omega)

/-- **The second loader** loads the sections of the program, clears `.bss` and jumps to the
program. -/
theorem leads_ssbl (h : y.Layout) {m : Bytes} (hm : y.Image m) {s : CPU}
    (hat : At y.ssbl.vma 0 (loadAll m [y.ssbl]) s) : Leads CPU.step s
      (At y.text.vma 0 (cleared (loadAll m y.sections) y.bss y.bssSize)) := by
  obtain ⟨hall, hjr⟩ := prefix_pieces (show _ ++ _ <+: y.ssblCode.drop 0 from List.prefix_rfl)
  obtain ⟨hall, hla⟩ := prefix_pieces hall
  obtain ⟨hall, hloop⟩ := prefix_pieces hall
  obtain ⟨hall, hend⟩ := prefix_pieces hall
  obtain ⟨hall, hbss⟩ := prefix_pieces hall
  obtain ⟨hall, hdata⟩ := prefix_pieces hall
  obtain ⟨htext, hrodata⟩ := prefix_pieces hall
  have hout : ∀ {as : Set Word}, as ⊆ sdram →
      Disjoint (span y.ssbl.vma (4 * y.ssblCode.length)) as := by
    intro as has
    refine (disjoint_regions.2.2.mono_right has).mono_left fun a ha => h.ssbl.vma ?_
    exact lt_of_lt_of_le ha h.ssbl_size
  have hc : ∀ xs : List Section, (y.ssbl :: xs) <+: y.sections →
      CodeAt (loadAll m (y.ssbl :: xs)) y.ssbl.vma y.ssblCode :=
    fun xs hxs => h.codeAt_ssbl hm hxs.sublist List.mem_cons_self
  have hsection : ∀ {k : ℕ} (xs : List Section) {x : Section} {s : CPU}, x.Placed sdram →
      (y.ssbl :: xs) ++ [x] <+: y.sections →
      COPY_SECTION_WORD y.ssbl.vma k x.lma x.vma x.stop <+: y.ssblCode.drop k →
      At y.ssbl.vma k (loadAll m (y.ssbl :: xs)) s → Leads CPU.step s
        (At y.ssbl.vma (k + 12) (loadAll m (y.ssbl :: (xs ++ [x])))) := by
    intro k xs x s hx hxs hcopy hs
    have hmem : ∀ u ∈ (y.ssbl :: xs) ++ [x], u ∈ y.sections := fun u hu => hxs.subset hu
    exact leads_section h _ hx (hc xs ((List.prefix_append _ _).trans hxs)) hcopy
      (fun u hu => hmem u (List.mem_append_left _ hu)) (hmem x (by simp)) (hout hx.vma) hs
  refine (hsection [] h.text ⟨_, rfl⟩ htext hat).bind fun t ht => ?_
  refine (hsection [y.text] h.rodata ⟨_, rfl⟩ hrodata ht).bind fun t ht => ?_
  refine (hsection [y.text, y.rodata] h.data ⟨_, rfl⟩ hdata ht).bind fun t ht => ?_
  have hc' := hc [y.text, y.rodata, y.data] List.prefix_rfl
  refine ht.address hc' hbss (by decide) fun u hu h1 _ => ?_
  refine hu.address hc' hend (by decide) fun v hv h2 hkeep => ?_
  have hmod := h.bss_align
  refine (leads_bssLoop hc' hloop h.bss_lt (by omega) (hout h.bss) hv ?_ h2).bind fun w hw => ?_
  · rw [hkeep t1 (by decide) (by decide), h1]
  have halign := h.text.align
  refine hw.leave ?_ hla rfl (by omega)
  exact codeAt_of_disjoint hc' (hout h.bss) fun a ha => cleared_frame le_rfl ha

/-- `_start` calls the program. -/
theorem leads_start (h : y.Layout) {m : Bytes} (hc : CodeAt m y.text.vma y.startCode) {s : CPU}
    (hat : At y.text.vma 0 m s) : Leads CPU.step s fun t =>
      t.pc = y.trmInit ∧ t.gpr sp = y.stackPointer ∧ t.gpr s0 = 0 ∧ t.mem = m := by
  refine hat.next hc (a := mv s0 0) rfl (by decide +kernel) ?_
  have hs0 : s.gpr 0 + 0 = 0 := by rw [hat.zero, add_zero]
  rw [mv, exec_addi, hs0]
  have hla : la (lineAt y.text.vma 1) sp y.stackPointer <+: y.startCode.drop 1 := ⟨_, rfl⟩
  refine (hat.assign s0 0).address hc hla (by decide) fun t ht hsp hkeep => ?_
  have hts0 : t.gpr s0 = 0 := by
    rw [hkeep s0 (by decide) (by decide), CPU.gpr_assign, if_neg (by decide), if_pos rfl]
  refine CodeAt.call (k := 3) (r := 1) (d := y.trmInit - lineAt y.text.vma 3) (fun _ _ _ _ => rfl)
    (ht.mem ▸ hc) ht.pc rfl rfl (by decide) (Leads.done ⟨?_, ?_, ?_, ht.mem⟩)
  · have htarget : t.pc + (y.trmInit - lineAt y.text.vma 3) = y.trmInit := by
      rw [ht.pc, BitVec.add_comm, BitVec.sub_add_cancel]
    rw [htarget]
    exact and_not_one h.trmInit
  · rw [CPU.gpr_link, if_neg (by decide), if_neg (by decide), CPU.gpr_assign, if_neg (by decide),
      if_neg (by decide), hsp]
  · rw [CPU.gpr_link, if_neg (by decide), if_neg (by decide), CPU.gpr_assign, if_neg (by decide),
      if_neg (by decide), hts0]

/-- **The program is loaded**: from the reset of the processor to the call of `_trm_init`. -/
theorem loads (h : y.Layout) {s : CPU} (hm : y.Image s.mem) (hpc : s.pc = y.fsbl)
    (h0 : s.gpr 0 = 0) : Leads CPU.step s (y.Entered s.mem) := by
  have hat : At y.fsbl 0 s.mem s := ⟨hpc.trans (lineAt_zero _).symm, rfl, h0⟩
  generalize s.mem = m at hm hat ⊢
  have hsection : ∀ x ∈ y.sections, ∀ a ∈ span x.vma x.size,
      cleared (loadAll m y.sections) y.bss y.bssSize a = m (x.lma + (a - x.vma)) := by
    intro x hx a ha
    have hbss : Disjoint (span x.vma x.size) (span y.bss y.bssSize) := by
      simp only [sections, List.mem_cons, List.not_mem_nil, or_false] at hx
      rcases hx with rfl | rfl | rfl | rfl
      · exact disjoint_regions.2.2.mono h.ssbl.vma h.bss
      · exact h.text_bss
      · exact h.rodata_bss
      · exact h.data_bss
    rw [cleared_frame le_rfl (Set.disjoint_left.mp hbss ha), loadAll_section hx h.pairwise ha]
  have htext : y.text ∈ y.sections := by simp [sections]
  refine (h.leads_fsbl hm hat).bind fun t ht => (h.leads_ssbl hm ht).bind fun u hu => ?_
  refine (h.leads_start ?_ hu).mono ?_
  · exact codeAt_loaded hm.start h.text_size h.text.size_lt (hsection _ htext)
  · rintro v ⟨hv, hsp, hs0, hmem⟩
    refine ⟨hv, hsp, hs0, ?_, fun a ha => ?_, fun a hnot hbss => ?_⟩
    · rw [hmem]
      exact hsection
    · rw [hmem]
      exact if_pos ha
    · rw [hmem, cleared_frame le_rfl hbss, loadAll_frame hnot]

end Symbols.Layout

/-! ### A small program -/

/-- A layout with a program of a few words. -/
def small : Symbols where
  fsbl := 0x30000000
  ssbl := ⟨0x30000040, 0x0f000000, 192⟩
  text := ⟨0x30000100, 0xa0000000, 24⟩
  rodata := ⟨0x30000118, 0xa0000018, 8⟩
  data := ⟨0x30000120, 0xa0000020, 8⟩
  bss := 0xa0000028
  bssSize := 16
  stackPointer := 0x0f002000
  trmInit := 0xa0000014

/-- The small layout is one. -/
theorem layout_small : small.Layout where
  fsbl := span_subset (by decide)
  ssbl := ⟨span_subset (by decide), span_subset (by decide), by decide,
    by decide, by decide⟩
  text := ⟨span_subset (by decide), span_subset (by decide), by decide,
    by decide, by decide⟩
  rodata := ⟨span_subset (by decide), span_subset (by decide), by decide,
    by decide, by decide⟩
  data := ⟨span_subset (by decide), span_subset (by decide), by decide,
    by decide, by decide⟩
  bss := span_subset (by decide)
  bss_align := by decide
  bss_lt := by decide
  text_rodata := disjoint_span (by decide) (by decide)
  text_data := disjoint_span (by decide) (by decide)
  rodata_data := disjoint_span (by decide) (by decide)
  text_bss := disjoint_span (by decide) (by decide)
  rodata_bss := disjoint_span (by decide) (by decide)
  data_bss := disjoint_span (by decide) (by decide)
  ssbl_size := by decide
  text_size := by decide
  trmInit := by decide

/-- The flash with its code. -/
def smallFlash : Bytes := fun a =>
  if (a - small.fsbl).toNat < 4 * 15 then image small.fsbl small.fsblCode a
  else if (a - small.ssbl.lma).toNat < 4 * 47 then image small.ssbl.lma small.ssblCode a
  else image small.text.lma small.startCode a

/-- The flash has the code of the small layout. -/
theorem image_small : small.Image smallFlash where
  fsbl := (codeAt_image small.fsbl small.fsblCode (by decide)).congr
    fun _ ha => if_pos ha
  ssbl := by
    refine (codeAt_image small.ssbl.lma small.ssblCode (by decide)).congr fun a ha => ?_
    have hfsbl : Disjoint (span small.ssbl.lma (4 * 47)) (span small.fsbl (4 * 15)) :=
      disjoint_span (by decide) (by decide)
    exact (if_neg (Set.disjoint_left.mp hfsbl ha)).trans (if_pos ha)
  start := by
    refine (codeAt_image small.text.lma small.startCode (by decide)).congr fun a ha => ?_
    have hfsbl : Disjoint (span small.text.lma (4 * 5)) (span small.fsbl (4 * 15)) :=
      disjoint_span (by decide) (by decide)
    have hssbl : Disjoint (span small.text.lma (4 * 5)) (span small.ssbl.lma (4 * 47)) :=
      disjoint_span (by decide) (by decide)
    exact (if_neg (Set.disjoint_left.mp hfsbl ha)).trans (if_neg (Set.disjoint_left.mp hssbl ha))

/-- It is loaded. -/
theorem loads_small : Leads CPU.step (restart 0x30000000 smallFlash) (small.Entered smallFlash) :=
  layout_small.loads image_small rfl rfl

end Boot

end Nemu

end Bailuwan
