/-
# Examining memory (`cmd_x` in `npc/sim/sdb/main.cpp`)

`x N EXPR` looks at the address and at the one behind the last word before it prints any
word, and the read of a word outside of the memories ends the simulation.  The words are
printed as they should be, or the message that they are out of range, if and only if the
address behind them is in memory exactly when all of them are (`examines_iff`).
-/
import Bailuwan.ExprReading

namespace Bailuwan

namespace Sdb

open DUTMemory

/-! ## The memories -/

/-- The memories of the simulation, with their sizes. -/
def areas : List (Word × Word) :=
  [(0x30000000, 0x1000000), (0x20000000, 0x1000), (0x80000000, 0x1000000),
    (0xa0000000, 0x2000000 * 4)]

/-- The bytes of a memory from an address on. -/
def room (a : Word) : ℕ :=
  match areas.find? fun area => inArea area.1 area.2 a with
  | some area => area.2.toNat - (a - area.1).toNat
  | none => 0

variable {a res : Word}

/-- The area of a size begins at its base. -/
theorem inArea_iff {base size : Word} :
    inArea base size a = true ↔ (a - base).toNat < size.toNat := by
  rw [inArea, BitVec.ult, decide_eq_true_eq]

/-- `in_sim_mem` looks at the areas one after the other. -/
theorem inSimMem_eq_any (a : Word) :
    inSimMem a = areas.any fun area => inArea area.1 area.2 a := by
  simp only [areas, List.any_cons, List.any_nil, Bool.or_false, inSimMem, Bool.or_assoc]
  rfl

/-- The memory of an address, and what is behind it. -/
theorem area_of_inSimMem (h : inSimMem a = true) : ∃ area ∈ areas,
    (a - area.1).toNat < area.2.toNat ∧ room a = area.2.toNat - (a - area.1).toNat := by
  rw [inSimMem_eq_any] at h
  obtain ⟨area, hfind⟩ :=
    Option.isSome_iff_exists.mp (List.find?_isSome.mpr (List.any_eq_true.mp h))
  have harea : inArea area.1 area.2 a = true := by simpa using List.find?_some hfind
  exact ⟨area, List.mem_of_find?_eq_some hfind, inArea_iff.mp harea, by rw [room, hfind]⟩

/-- The addresses of an area are in the memory of the simulation. -/
theorem inSimMem_of_area {area : Word × Word} (harea : area ∈ areas)
    (h : (a - area.1).toNat < area.2.toNat) : inSimMem a = true := by
  rw [inSimMem_eq_any]
  exact List.any_eq_true.mpr ⟨area, harea, inArea_iff.mpr h⟩

/-- Memories begin and end at words, and there is none behind another one. -/
theorem areas_apart : ∀ area ∈ areas, area.1.toNat % 4 = 0 ∧ area.2.toNat % 4 = 0 ∧
    area.1.toNat + area.2.toNat < 2 ^ 32 ∧ inSimMem (area.1 + area.2) = false := by
  intro area harea
  rw [areas, List.mem_cons, List.mem_cons, List.mem_cons, List.mem_singleton] at harea
  rcases harea with rfl | rfl | rfl | rfl <;> decide

/-- The `i`-th word from an address on. -/
def nth (res : Word) (i : ℕ) : Word := res + 4 * BitVec.ofNat 32 i

/-- **The words in memory**: those within the memory of the first one. -/
theorem nth_inSimMem (hal : res.toNat % 4 = 0) (hin : inSimMem res = true) :
    room res % 4 = 0 ∧ room res < 2 ^ 32 ∧ (∀ i, 4 * i < room res → inSimMem (nth res i) = true) ∧
      inSimMem (nth res (room res / 4)) = false := by
  obtain ⟨area, harea, hlt, hroom⟩ := area_of_inSimMem hin
  obtain ⟨hbase, hsize, hend, hout⟩ := areas_apart area harea
  have hres := res.isLt
  have hsub : (res - area.1).toNat = res.toNat - area.1.toNat ∧ area.1.toNat ≤ res.toNat := by
    rw [BitVec.toNat_sub] at hlt ⊢
    omega
  rw [hsub.1] at hlt hroom
  refine ⟨by omega, by omega, fun i hi => ?_, ?_⟩
  · refine inSimMem_of_area harea ?_
    rw [nth, BitVec.toNat_sub, BitVec.toNat_add, BitVec.toNat_mul, BitVec.toNat_ofNat]
    show (2 ^ 32 - area.1.toNat + (res.toNat + 4 * (i % 2 ^ 32) % 2 ^ 32) % 2 ^ 32) % 2 ^ 32 < _
    omega
  · have heq : nth res (room res / 4) = area.1 + area.2 := by
      apply BitVec.eq_of_toNat_eq
      rw [nth, BitVec.toNat_add, BitVec.toNat_mul, BitVec.toNat_ofNat, BitVec.toNat_add]
      show (res.toNat + 4 * (room res / 4 % 2 ^ 32) % 2 ^ 32) % 2 ^ 32 = _
      omega
    rw [heq]
    exact hout

/-! ## The command -/

/-- What is printed: a message, or an address with a word. -/
inductive Output
  | message (text : String)
  | word (addr value : Word)
  deriving DecidableEq, Repr

/-- `*endptr` of `strtol` in base 10, behind a number. -/
def endptr (s : List Char) : List Char :=
  let rest := fun s : List Char => s.dropWhile fun c => decide (digitValue c < 10)
  match s.dropWhile isSpace with
  | '-' :: s => rest s
  | '+' :: s => rest s
  | s => rest s

namespace Npc

variable (m : Npc)

/-- The loop of `cmd_x` from `i` on; the counter has 32 bits and the bound 64. -/
def printWords (res : Word) (n : BitVec 64) : ℕ → Word → Except Fault (List Output)
  | 0, _ => .error .outOfFuel
  | fuel + 1, i =>
      if (i.setWidth 64).ult n then
        match DUTMemory.read m.mem (res + i * 4) with
        | none => .error .outOfBound
        | some value => do
            let lines ← printWords res n fuel (i + 1)
            return .word (res + i * 4) value :: lines
      else .ok []

/-- `cmd_x` with an address and a count. -/
def examine (fuel : ℕ) (res : Word) (n : BitVec 64) : Except Fault (List Output) :=
  if res.toNat % 4 ≠ 0 then .ok [.message "x: Address must be aligned to 4 bytes.\n"]
  else if inSimMem res = false ∨ inSimMem ((res.setWidth 64 + 4 * n).setWidth 32) = false then
    .ok [.message "x: Address out of range.\n"]
  else m.printWords res n fuel 0

/-- `cmd_x` -/
def cmdX (fuel : ℕ) : Option (List Char) → Except Fault (List Output)
  | none => .ok [.message "x: Expected two arguments.\n"]
  | some args =>
      match strtol args 10 with
      | none => .ok [.message "x: Expected a number.\n"]
      | some v => do
          match ← (Debugger.npc m).expr (endptr args) with
          | none => .ok [.message "x: Failed to evaluate expression.\n"]
          | some res => m.examine fuel res (BitVec.ofInt 64 v)

/-- The lines for `n` words. -/
def lines (res : Word) (n : ℕ) : List Output :=
  (List.range n).map fun i => .word (nth res i) (wordAt m.mem (nth res i))

/-- What should be printed for an address and a count. -/
def expected (res : Word) (n : ℕ) : List Output :=
  if ∀ i < n, inSimMem (nth res i) = true then m.lines res n
  else [.message "x: Address out of range.\n"]

/-- **The statement**, for arguments with the count `n` and the address `res`: the loop ends and
what is printed is what should be. -/
def Examines (args : List Char) (res : Word) (n : BitVec 64) : Prop :=
  ∃ fuel, m.cmdX fuel (some args) = .ok (m.expected res n.toNat)

/-! ## The loop -/

variable {m} {n : BitVec 64}

/-- `addr + i * 4` is the address of a word of the list. -/
theorem mul_four_eq_nth (res : Word) (k : ℕ) : res + BitVec.ofNat 32 k * 4 = nth res k := by
  rw [nth, BitVec.mul_comm]

/-- The comparison of the loop. -/
theorem ult_count {k : ℕ} (hk : k < 2 ^ 32) :
    ((BitVec.ofNat 32 k).setWidth 64).ult n = decide (k < n.toNat) := by
  rw [BitVec.ult, BitVec.toNat_setWidth, BitVec.toNat_ofNat, Nat.mod_eq_of_lt hk,
    Nat.mod_eq_of_lt (by omega)]

/-- A step of the loop. -/
theorem printWords_succ {fuel k : ℕ} (hk : k < 2 ^ 32) (hlt : k < n.toNat)
    (hin : inSimMem (nth res k) = true) :
    m.printWords res n (fuel + 1) (BitVec.ofNat 32 k) =
      (m.printWords res n fuel (BitVec.ofNat 32 (k + 1))).map
        (.word (nth res k) (wordAt m.mem (nth res k)) :: ·) := by
  have hnext : BitVec.ofNat 32 k + 1 = BitVec.ofNat 32 (k + 1) := (BitVec.ofNat_add ..).symm
  rw [printWords, ult_count hk, if_pos (decide_eq_true hlt), mul_four_eq_nth, DUTMemory.read,
    if_pos hin, hnext]
  cases m.printWords res n fuel (BitVec.ofNat 32 (k + 1)) <;> rfl

/-- The loop prints the words that are left, if they are all in memory. -/
theorem printWords_eq (hall : ∀ i < n.toNat, inSimMem (nth res i) = true)
    (hn : n.toNat < 2 ^ 32) {k l : ℕ} (hkl : k + l = n.toNat) :
    m.printWords res n (l + 1) (BitVec.ofNat 32 k) =
      .ok ((List.range' k l).map fun i => .word (nth res i) (wordAt m.mem (nth res i))) := by
  induction l generalizing k with
  | zero =>
      rw [printWords, ult_count (by omega), if_neg (by rw [decide_eq_true_eq]; omega)]
      rfl
  | succ l ih =>
      rw [printWords_succ (by omega) (by omega) (hall k (by omega)), ih (by omega)]
      rfl

/-- The loop does not end with a result, if a word that it comes to is not in memory. -/
theorem printWords_ne_ok {j : ℕ} (hj : j < 2 ^ 32) (hjn : j < n.toNat)
    (hall : ∀ i < j, inSimMem (nth res i) = true) (hout : inSimMem (nth res j) = false)
    (fuel : ℕ) {k : ℕ} (hk : k ≤ j) (out : List Output) :
    m.printWords res n fuel (BitVec.ofNat 32 k) ≠ .ok out := by
  induction fuel generalizing k out with
  | zero =>
      intro h
      cases h
  | succ fuel ih =>
      intro h
      rcases Nat.lt_or_eq_of_le hk with hlt | rfl
      · rw [printWords_succ (by omega) (by omega) (hall k hlt)] at h
        cases hrest : m.printWords res n fuel (BitVec.ofNat 32 (k + 1)) with
        | error f => rw [hrest] at h; cases h
        | ok rest => exact ih hlt rest hrest
      · rw [printWords, ult_count hj, if_pos (decide_eq_true hjn), mul_four_eq_nth, DUTMemory.read,
          if_neg (by simp [hout])] at h
        cases h

/-! ## The statement -/

variable {args : List Char}

/-- All words are in memory if and only if there is room for them. -/
theorem all_inSimMem_iff (hal : res.toNat % 4 = 0) (hin : inSimMem res = true) (n : ℕ) :
    (∀ i < n, inSimMem (nth res i) = true) ↔ 4 * n ≤ room res := by
  obtain ⟨hroom, -, hwithin, hout⟩ := nth_inSimMem hal hin
  constructor
  · intro h
    by_contra hno
    rw [h (room res / 4) (by omega)] at hout
    cases hout
  · intro h i hi
    exact hwithin i (by omega)

/-- The lines do not begin with the message. -/
theorem message_eq_expected_iff {n : ℕ} (hpos : 1 ≤ n) :
    [Output.message "x: Address out of range.\n"] = m.expected res n ↔
      ¬ ∀ i < n, inSimMem (nth res i) = true := by
  constructor
  · intro heq h
    rw [expected, if_pos h] at heq
    have hlines := congrArg List.head? heq
    obtain ⟨k, rfl⟩ := Nat.exists_eq_add_of_le' hpos
    rw [lines, List.range_succ_eq_map] at hlines
    simp at hlines
  · intro h
    rw [expected, if_neg h]

/-- The loop ends if and only if all words are in memory. -/
theorem printWords_eq_expected_iff (hal : res.toNat % 4 = 0) (hin : inSimMem res = true) :
    (∃ fuel, m.printWords res n fuel 0 = .ok (m.expected res n.toNat)) ↔
      ∀ i < n.toNat, inSimMem (nth res i) = true := by
  obtain ⟨hroom, hlt, hwithin, hout⟩ := nth_inSimMem hal hin
  have hall := all_inSimMem_iff hal hin n.toNat
  constructor
  · rintro ⟨fuel, hok⟩
    by_contra hno
    rw [hall] at hno
    exact printWords_ne_ok (k := 0) (j := room res / 4) (by omega) (by omega)
      (fun i hi => hwithin i (by omega)) hout fuel (Nat.zero_le _) _ hok
  · intro h
    have hfit := hall.mp h
    refine ⟨n.toNat + 1, ?_⟩
    rw [expected, if_pos h, lines, List.range_eq_range']
    exact printWords_eq h (by omega) (Nat.zero_add _)

/-- The command once its arguments are read. -/
theorem cmdX_eq (hn : (strtol args 10).map (BitVec.ofInt 64) = some n)
    (hres : (Debugger.npc m).expr (endptr args) = .ok (some res)) (hal : res.toNat % 4 = 0)
    (fuel : ℕ) : m.cmdX fuel (some args) =
      if inSimMem res = false ∨ inSimMem ((res.setWidth 64 + 4 * n).setWidth 32) = false then
        .ok [.message "x: Address out of range.\n"]
      else m.printWords res n fuel 0 := by
  obtain ⟨v, hv, rfl⟩ := Option.map_eq_some_iff.mp hn
  rw [cmdX, hv]
  simp only [hres]
  exact if_neg (not_not.mpr hal)

/-- **The words or the message are printed** if and only if the address is out of memory, or
the one behind the last word is in memory exactly when the memory of the first one has room
for all words. -/
theorem examines_iff {args : List Char} {res : Word} {n : BitVec 64}
    (hn : (strtol args 10).map (BitVec.ofInt 64) = some n) (hpos : 1 ≤ n.toNat)
    (hres : (Debugger.npc m).expr (endptr args) = .ok (some res)) (hal : res.toNat % 4 = 0) :
    m.Examines args res n ↔ (inSimMem res = true →
      (inSimMem ((res.setWidth 64 + 4 * n).setWidth 32) = true ↔ 4 * n.toNat ≤ room res)) := by
  unfold Examines
  simp only [cmdX_eq hn hres hal]
  by_cases hin : inSimMem res = true
  · rw [← all_inSimMem_iff hal hin]
    simp only [hin, true_implies, Bool.true_eq_false, false_or]
    cases inSimMem ((res.setWidth 64 + 4 * n).setWidth 32) with
    | false =>
        simp only [if_true, exists_const, Except.ok.injEq, Bool.false_eq_true, false_iff]
        exact message_eq_expected_iff hpos
    | true =>
        simp only [Bool.true_eq_false, if_false, true_iff]
        exact printWords_eq_expected_iff hal hin
  · have hno : ¬ ∀ i < n.toNat, inSimMem (nth res i) = true := by
      intro h
      have h0 := h 0 (by omega)
      rw [show nth res 0 = res from BitVec.add_zero res] at h0
      exact hin h0
    rw [expected, if_neg hno]
    simp [hin]

end Npc

/-- `x 2 0x20000ff0` -/
theorem examines_two : zeroNpc.Examines ['2', ' ', '0', 'x', '2', '0', '0', '0', '0', 'f', 'f', '0']
    0x20000ff0 2 ↔ (inSimMem 0x20000ff0 = true →
      (inSimMem (((0x20000ff0 : Word).setWidth 64 + 4 * 2).setWidth 32) = true ↔
        4 * (2 : BitVec 64).toNat ≤ room 0x20000ff0)) :=
  Npc.examines_iff (by decide) (by decide) rfl (by decide)

/-- `x 1 0x20000ffc` does not print the last word of a memory. -/
theorem lastWord_not_examined :
    zeroNpc.cmdX 2 (some ['1', ' ', '0', 'x', '2', '0', '0', '0', '0', 'f', 'f', 'c']) =
      .ok [.message "x: Address out of range.\n"] ∧
    ¬ zeroNpc.Examines ['1', ' ', '0', 'x', '2', '0', '0', '0', '0', 'f', 'f', 'c']
      0x20000ffc 1 := by
  refine ⟨rfl, ?_⟩
  rintro ⟨fuel, h⟩
  have hmessage : zeroNpc.cmdX fuel
      (some ['1', ' ', '0', 'x', '2', '0', '0', '0', '0', 'f', 'f', 'c']) =
        .ok [.message "x: Address out of range.\n"] := rfl
  rw [hmessage] at h
  exact absurd h (by decide)

end Sdb

end Bailuwan
