/-
# The instruction ring buffer (`nemu/src/cpu/cpu-exec.c`)

`iringbuf_push` keeps the last 15 instructions in 16 entries, and `iringbuf_display` prints them.
It marks the entry before the write pointer, but does not go around the end of the buffer for
it: with the write pointer at 0 no line is marked, which is after every 16 instructions
(`displays_iff`).
-/
import Bailuwan.Memory
import Bailuwan.Printf
import Bailuwan.RingBuffer

namespace Bailuwan

namespace Iringbuf

open RingBuffer

/-! ## The text of an instruction -/

/-- What capstone makes of an instruction; the mnemonic is shorter than any entry. -/
structure Insn where
  mnemonic : List Char
  opStr : List Char

/-- The disassembler, by the address and the bytes of an instruction. -/
abbrev Capstone := Word → Word → Insn

variable (capstone : Capstone)

/-- `disassemble` into `size` characters. -/
def disassemble (size : ℕ) (pc inst : Word) : List Char :=
  let insn := capstone pc inst
  (insn.mnemonic ++ if insn.opStr = [] then [] else '\t' :: insn.opStr).take (size - 1)

/-- `printf("%0*x")` of the host. -/
def hex (width n : ℕ) : List Char := Klib.padded true width [] (Klib.Conversion.x.numeral n)

/-- The room for the text of an instruction. -/
def IRINGBUF_ENTRY_SZ : ℕ := 128

/-- `disasm_and_dump` of the four bytes of an instruction. -/
def disasmAndDump (pc inst : Word) : List Char :=
  let head := ['0', 'x'] ++ hex 8 pc.toNat ++ [':'] ++
    ([3, 2, 1, 0].flatMap fun i => ' ' :: hex 2 (byteOf inst i).toNat) ++ [' ']
  head ++ disassemble capstone (IRINGBUF_ENTRY_SZ - head.length) pc inst

/-! ## The buffer -/

/-- The number of entries; one stays free. -/
def IRINGBUF_SZ : ℕ := 16

/-- `ringbuf_t`, of which the entries are strings. -/
structure Ringbuf where
  buf : ℕ → List Char := fun _ => []
  rptr : ℕ := 0
  wptr : ℕ := 0

/-- The arguments of `iringbuf_push`. -/
structure Pushed where
  pc : Word
  inst : Word
  deriving DecidableEq, Repr

/-- `iringbuf_push` -/
def push (g : Ringbuf) (p : Pushed) : Ringbuf :=
  let wptr := (g.wptr + 1) % IRINGBUF_SZ
  { buf := Function.update g.buf g.wptr (disasmAndDump capstone p.pc p.inst)
    wptr := wptr
    rptr := if wptr = g.rptr then (g.rptr + 1) % IRINGBUF_SZ else g.rptr }

/-- Calls of `iringbuf_push` from the beginning. -/
def pushAll (ps : List Pushed) : Ringbuf := ps.foldl (push capstone) {}

/-- `printf("%s\n", ...)` -/
def plain (text : List Char) : List Char := text ++ ['\n']

/-- `printf("%s <<<<<<<<<<<<<<<<<<<\n", ...)` -/
def marked (text : List Char) : List Char := text ++ " <<<<<<<<<<<<<<<<<<<\n".toList

/-- The line of entry `i`. -/
def line (g : Ringbuf) (i : ℕ) : List Char :=
  if (i : ℤ) = (g.wptr : ℤ) - 1 then marked (g.buf i) else plain (g.buf i)

/-- The loop of `iringbuf_display`, and the lines that it prints; none where the fuel runs out. -/
def displayLoop (g : Ringbuf) : ℕ → ℕ → Option (List (List Char))
  | 0, _ => none
  | fuel + 1, i =>
      if i ≠ g.wptr then (displayLoop g fuel ((i + 1) % IRINGBUF_SZ)).map (line g i :: ·)
      else some []

/-- `iringbuf_display` -/
def display (fuel : ℕ) (g : Ringbuf) : Option (List (List Char)) := displayLoop g fuel g.rptr

/-- The texts of the last instructions, oldest first. -/
def lastTexts (ps : List Pushed) : List (List Char) :=
  (ps.drop (ps.length - (IRINGBUF_SZ - 1))).map fun p => disasmAndDump capstone p.pc p.inst

/-- Lines of which the last one is marked. -/
def markedLast (texts : List (List Char)) : List (List Char) :=
  texts.dropLast.map plain ++ texts.getLast?.toList.map marked

/-- **The statement about the ring buffer** after some calls of `iringbuf_push`: the lines are
those of the last 15 instructions, or of all, and the mark is on the newest one. -/
def Displays (ps : List Pushed) : Prop :=
  ∃ fuel, display fuel (pushAll capstone ps) = some (markedLast (lastTexts capstone ps))

/-! ## Pushing -/

variable {g : Ringbuf} {q : List (List Char)} {text : List Char} {p : Pushed} {ps : List Pushed}

/-- **The buffer holds the queue** `q` of texts. -/
abbrev Queue (g : Ringbuf) (q : List (List Char)) : Prop :=
  Holds g.buf IRINGBUF_SZ g.rptr g.wptr q []

/-- The pointers are apart unless the queue is empty. -/
theorem Queue.wptr_ne (h : Queue g q) (hq : q ≠ []) : g.rptr ≠ g.wptr := by
  intro heq
  have hused := h.used
  rw [heq, Nat.add_sub_cancel_left, Nat.mod_self] at hused
  exact hq (List.length_eq_zero_iff.mp hused.symm)

/-- An entry is written and published. -/
theorem Queue.append (h : Queue g q) (hq : q.length < 15) (text : List Char) :
    Queue ⟨Function.update g.buf g.wptr text, g.rptr, (g.wptr + 1) % IRINGBUF_SZ⟩
      (q ++ [text]) := by
  have hstage := h.stage (Nat.lt_succ_of_lt hq) text
  rw [List.length_nil, Nat.add_zero, Nat.mod_eq_of_lt h.wptr_lt, List.nil_append] at hstage
  exact hstage.publish (Nat.succ_lt_succ hq)

/-- With 15 instructions the pointers would meet. -/
theorem Queue.full (h : Queue g q) (hq : q.length = 15) : (g.wptr + 1) % IRINGBUF_SZ = g.rptr := by
  have hstage := h.stage (by rw [hq]; decide) []
  exact hstage.full (by rw [hq]; rfl)

/-- **A call of `iringbuf_push`** gives up the oldest of 15 instructions. -/
theorem Queue.push (h : Queue g q) (p : Pushed) : Queue (push capstone g p)
    (q.drop (q.length + 1 - 15) ++ [disasmAndDump capstone p.pc p.inst]) := by
  have hleft : q.length < 16 := h.left
  rcases Nat.lt_or_eq_of_le (Nat.le_of_lt_succ hleft) with hlt | hfull
  · have happend := h.append hlt (disasmAndDump capstone p.pc p.inst)
    have hne : (g.wptr + 1) % IRINGBUF_SZ ≠ g.rptr :=
      (happend.wptr_ne (List.append_ne_nil_of_right_ne_nil _ (List.cons_ne_nil _ _))).symm
    rw [Iringbuf.push, if_neg hne, show q.length + 1 - 15 = 0 by omega, List.drop_zero]
    exact happend
  · have hrest : Queue { g with rptr := (g.rptr + 1) % IRINGBUF_SZ } (q.drop 1) :=
      h.take (by omega)
    have happend := hrest.append (by rw [List.length_drop]; omega)
      (disasmAndDump capstone p.pc p.inst)
    rw [Iringbuf.push, if_pos (h.full hfull), show q.length + 1 - 15 = 1 by omega]
    exact happend

/-- The display has at most 15 lines. -/
theorem length_lastTexts (ps : List Pushed) :
    (lastTexts capstone ps).length = min ps.length 15 := by
  rw [lastTexts, List.length_map, List.length_drop, IRINGBUF_SZ]
  omega

/-- A push adds the last line. -/
theorem lastTexts_concat (ps : List Pushed) (p : Pushed) : lastTexts capstone (ps ++ [p]) =
    (lastTexts capstone ps).drop ((lastTexts capstone ps).length + 1 - 15) ++
      [disasmAndDump capstone p.pc p.inst] := by
  rw [length_lastTexts, lastTexts, lastTexts, List.length_append, List.length_singleton,
    IRINGBUF_SZ, List.drop_append_of_le_length (by omega), List.map_append, ← List.map_drop,
    List.drop_drop,
    show ps.length + 1 - (16 - 1) = ps.length - (16 - 1) + (min ps.length 15 + 1 - 15) by omega]
  rfl

/-- **What the buffer holds** after any calls. -/
theorem queue_pushAll (ps : List Pushed) : Queue (pushAll capstone ps) (lastTexts capstone ps) := by
  induction ps using List.reverseRecOn with
  | nil => exact Holds.empty _ (by decide)
  | append_singleton ps p ih =>
      rw [pushAll, List.foldl_append, lastTexts_concat]
      exact ih.push capstone p

/-- The write pointer counts the calls. -/
theorem wptr_pushAll (ps : List Pushed) : (pushAll capstone ps).wptr = ps.length % 16 := by
  induction ps using List.reverseRecOn with
  | nil => rfl
  | append_singleton ps p ih =>
      rw [pushAll, List.foldl_append, List.length_append, List.length_singleton, ← Nat.mod_add_mod,
        ← ih]
      rfl

/-! ## Displaying -/

/-- Only the last line is marked. -/
theorem markedLast_cons (hq : q ≠ []) : markedLast (text :: q) = plain text :: markedLast q := by
  rw [markedLast, List.dropLast_cons_of_ne_nil hq, List.getLast?_cons_of_ne_nil hq]
  rfl

/-- The lines differ from lines without a mark. -/
theorem map_plain_ne_markedLast (hq : q ≠ []) : q.map plain ≠ markedLast q := by
  induction q with
  | nil => exact absurd rfl hq
  | cons text q ih =>
      by_cases hnil : q = []
      · rw [hnil]
        intro h
        have hlast := congrArg (List.map List.length) h
        simp [markedLast, plain, marked] at hlast
      · rw [markedLast_cons hnil, List.map_cons]
        intro h
        exact ih hnil (List.cons.inj h).2

section Display

variable {i fuel : ℕ}

/-- The oldest entry. -/
theorem buf_head (h : Holds g.buf IRINGBUF_SZ i g.wptr (text :: q) []) : g.buf i = text := by
  have hread := h.read (k := 1) (Nat.succ_le_succ (Nat.zero_le _))
  rw [window_succ, window_zero, Nat.add_zero, Nat.mod_eq_of_lt h.rptr_lt] at hread
  exact (List.cons.inj hread).1

/-- The test for the mark finds the newest entry, if it is not the last one of the buffer. -/
theorem line_eq (h : Holds g.buf IRINGBUF_SZ i g.wptr (text :: q) []) :
    line g i = if q = [] ∧ g.wptr ≠ 0 then marked text else plain text := by
  have hlt : i < 16 := h.rptr_lt
  have hnext := h.take (k := 1) (Nat.succ_le_succ (Nat.zero_le _))
  have hmark : (i : ℤ) = (g.wptr : ℤ) - 1 ↔ q = [] ∧ g.wptr ≠ 0 := by
    constructor
    · intro hi
      have hwptr : (i + 1) % IRINGBUF_SZ = g.wptr := by
        have := h.wptr_lt
        rw [show i + 1 = g.wptr by omega, Nat.mod_eq_of_lt this]
      refine ⟨?_, by omega⟩
      by_contra hq
      exact Queue.wptr_ne (g := { g with rptr := (i + 1) % IRINGBUF_SZ }) hnext hq hwptr
    · rintro ⟨rfl, hwptr⟩
      have heq : g.wptr = (i + 1) % 16 := h.wptr_eq
      omega
  rw [line, buf_head h]
  exact if_congr hmark rfl rfl

/-- **The lines of `iringbuf_display`**: all entries, the newest one with a mark, unless the write
pointer is at 0. -/
theorem displayLoop_eq (h : Holds g.buf IRINGBUF_SZ i g.wptr q []) (fuel : ℕ) :
    displayLoop g fuel i = if q.length < fuel then
      some (if g.wptr = 0 then q.map plain else markedLast q) else none := by
  induction q generalizing i fuel with
  | nil =>
      cases fuel with
      | zero => rfl
      | succ fuel =>
          have hmeet : i = g.wptr := by
            rw [h.wptr_eq]
            exact (Nat.mod_eq_of_lt h.rptr_lt).symm
          rw [displayLoop, if_neg (not_not.mpr hmeet), List.length_nil,
            if_pos (Nat.succ_pos fuel)]
          split_ifs <;> rfl
  | cons text q ih =>
      cases fuel with
      | zero => rfl
      | succ fuel =>
          have hapart : i ≠ g.wptr :=
            Queue.wptr_ne (g := { g with rptr := i }) h (List.cons_ne_nil text q)
          have hnext := h.take (k := 1) (Nat.succ_le_succ (Nat.zero_le _))
          have hline : line g i :: (if g.wptr = 0 then q.map plain else markedLast q) =
              if g.wptr = 0 then (text :: q).map plain else markedLast (text :: q) := by
            rw [line_eq h]
            by_cases hwptr : g.wptr = 0
            · rw [if_neg (fun h => h.2 hwptr), if_pos hwptr, if_pos hwptr]
              rfl
            · rw [if_neg hwptr, if_neg hwptr]
              by_cases hq : q = []
              · rw [if_pos ⟨hq, hwptr⟩, hq]
                rfl
              · rw [if_neg (fun h => hq h.1), markedLast_cons hq]
          rw [displayLoop, if_pos hapart, ih hnext fuel, ← hline, List.length_cons]
          simp only [Nat.succ_lt_succ_iff]
          split_ifs <;> rfl

end Display

/-- **After any calls** the lines are those of the last instructions; the newest one is marked,
unless the number of the calls is a multiple of 16. -/
theorem display_pushAll (ps : List Pushed) (fuel : ℕ) :
    display fuel (pushAll capstone ps) = if (lastTexts capstone ps).length < fuel then
      some (if 16 ∣ ps.length then (lastTexts capstone ps).map plain
        else markedLast (lastTexts capstone ps)) else none := by
  have hdvd : 16 ∣ ps.length ↔ ps.length % 16 = 0 := Nat.dvd_iff_mod_eq_zero
  rw [display, displayLoop_eq (queue_pushAll capstone ps), wptr_pushAll]
  simp only [hdvd]

/-- After a push something is displayed. -/
theorem lastTexts_ne_nil (hps : ps ≠ []) : lastTexts capstone ps ≠ [] := by
  intro h
  have hpos := List.length_pos_iff.mpr hps
  have hlen := length_lastTexts capstone ps
  rw [h, List.length_nil] at hlen
  omega

/-- **When the mark is there.** -/
theorem displays_iff (capstone : Capstone) (ps : List Pushed) (hps : ps ≠ []) :
    Displays capstone ps ↔ ¬ 16 ∣ ps.length := by
  constructor
  · rintro ⟨fuel, hdisplay⟩ hdvd
    rw [display_pushAll, if_pos hdvd] at hdisplay
    split_ifs at hdisplay
    exact map_plain_ne_markedLast (lastTexts_ne_nil capstone hps) (Option.some.inj hdisplay)
  · intro hdvd
    refine ⟨(lastTexts capstone ps).length + 1, ?_⟩
    rw [display_pushAll, if_pos (Nat.lt_succ_self _), if_neg hdvd]

/-- `addi x0, x0, 0` -/
def nop : Pushed := ⟨0x80000000, 0x00000013⟩

/-- Seventeen instructions, the last one in the place of the first. -/
theorem seventeen_nops_displays_iff :
    Displays (fun _ _ => ⟨"nop".toList, []⟩) (List.replicate 17 nop) ↔
      ¬ 16 ∣ (List.replicate 17 nop).length :=
  displays_iff _ (List.replicate 17 nop) (List.cons_ne_nil nop _)

/-- Sixteen instructions, none of which is marked. -/
theorem sixteen_nops_not_marked :
    ¬ Displays (fun _ _ => ⟨"nop".toList, []⟩) (List.replicate 16 nop) := by
  rintro ⟨fuel, hdisplay⟩
  have hdvd : 16 ∣ (List.replicate 16 nop).length := by decide
  rw [display_pushAll, if_pos hdvd] at hdisplay
  split_ifs at hdisplay
  exact map_plain_ne_markedLast (lastTexts_ne_nil _ (by decide)) (Option.some.inj hdisplay)

end Iringbuf

end Bailuwan
