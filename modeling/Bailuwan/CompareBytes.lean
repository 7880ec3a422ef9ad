/-
# Comparing bytes (`klib/src/string.c`)

`strcmp` and `strncmp` subtract the first bytes that differ as `unsigned char`; `memcmp` subtracts
them as plain `char`, which has a sign on some architectures.  There it puts the bytes from
`0x80` on before the others, so the three functions are of one opinion if and only if the first
bytes that differ are in the same half of the range (`signs_agree_iff`).
-/
import Bailuwan.CopyBytes
import Mathlib.Data.Nat.Find

namespace Bailuwan

namespace Klib

/-- Whether plain `char` has a sign. -/
inductive PlainChar
  | signed
  | unsigned
  deriving DecidableEq, Repr

/-- `(int)x` of a plain `char`. -/
def PlainChar.toInt : PlainChar → BitVec 8 → ℤ
  | .signed, x => x.toInt
  | .unsigned, x => x.toNat

/-- The loop of `memcmp`, of which `turns` turns are left. -/
def memcmpLoop (c : PlainChar) (mem : Mem) (a b : ℕ) : ℕ → ℕ → ℤ
  | 0, _ => 0
  | turns + 1, i =>
      if mem (a + i) ≠ mem (b + i) then c.toInt (mem (a + i)) - c.toInt (mem (b + i))
      else memcmpLoop c mem a b turns (i + 1)

/-- `memcmp` -/
def memcmp (c : PlainChar) (mem : Mem) (s1 s2 n : ℕ) : ℤ := memcmpLoop c mem s1 s2 n 0

/-- `*(const unsigned char*)s1 - *(const unsigned char*)s2` -/
def byteDiff (mem : Mem) (s1 s2 : ℕ) : ℤ := (mem s1).toNat - (mem s2).toNat

/-- `strcmp`; none where the fuel of its loop runs out. -/
def strcmp (mem : Mem) : ℕ → ℕ → ℕ → Option ℤ
  | 0, _, _ => none
  | fuel + 1, s1, s2 =>
      if mem s1 ≠ 0 ∧ mem s1 = mem s2 then strcmp mem fuel (s1 + 1) (s2 + 1)
      else some (byteDiff mem s1 s2)

/-- `i` after the loop of `strncmp`, which goes on for `turns` turns at most and moves both
pointers with `i`. -/
def strncmpLoop (mem : Mem) : ℕ → ℕ → ℕ → ℕ → ℕ
  | 0, i, _, _ => i
  | turns + 1, i, s1, s2 =>
      if mem s1 ≠ 0 ∧ mem s1 = mem s2 then strncmpLoop mem turns (i + 1) (s1 + 1) (s2 + 1) else i

/-- `strncmp` -/
def strncmp (mem : Mem) (s1 s2 n : ℕ) : ℤ :=
  if n = 0 then 0
  else
    let i := strncmpLoop mem n 0 s1 s2
    if i = n then 0 else byteDiff mem (s1 + i) (s2 + i)

/-! ## What they should compute -/

/-- The sign of the first bytes that differ, as `unsigned char`, or 0. -/
def unsignedSign (mem : Mem) (a b n : ℕ) : ℤ :=
  ((List.range n).find? fun i => mem (a + i) != mem (b + i)).elim 0
    fun i => (byteDiff mem (a + i) (b + i)).sign

/-- The string at `s` has `len` bytes before its NUL. -/
def IsString (mem : Mem) (s len : ℕ) : Prop := (∀ i < len, mem (s + i) ≠ 0) ∧ mem (s + len) = 0

/-- **The statement about `strcmp`, `strncmp` and `memcmp`**: they return, with the same sign. -/
def SameSigns (c : PlainChar) (mem : Mem) (s t m : ℕ) : Prop :=
  ∃ fuel r, strcmp mem fuel s t = some r ∧ r.sign = (strncmp mem s t m).sign ∧
    (strncmp mem s t m).sign = (memcmp c mem s t m).sign

/-- The bytes before `i` are the same. -/
def EqualBelow (mem : Mem) (a b i : ℕ) : Prop := ∀ j < i, mem (a + j) = mem (b + j)

/-- The first bytes that differ are both below `0x80` or both not, where it matters. -/
def SameHalf (c : PlainChar) (mem : Mem) (a b n : ℕ) : Prop :=
  c = .unsigned ∨ ∀ i < n, EqualBelow mem a b i → mem (a + i) ≠ mem (b + i) →
    (mem (a + i)).msb = (mem (b + i)).msb

/-! ## The first difference -/

variable {c : PlainChar} {mem : Mem} {a b i k n s t : ℕ}

theorem EqualBelow.mono (h : EqualBelow mem a b n) (hi : i ≤ n) : EqualBelow mem a b i :=
  fun j hj => h j (Nat.lt_of_lt_of_le hj hi)

/-- The first bytes that differ are at one place. -/
theorem EqualBelow.unique (hi : EqualBelow mem a b i) (hine : mem (a + i) ≠ mem (b + i))
    (hk : EqualBelow mem a b k) (hkne : mem (a + k) ≠ mem (b + k)) : i = k := by
  rcases Nat.lt_trichotomy i k with hlt | heq | hgt
  · exact absurd (hk i hlt) hine
  · exact heq
  · exact absurd (hi k hgt) hkne

/-- Two ranges are equal, or there is a first difference. -/
theorem equalBelow_or_exists (mem : Mem) (a b n : ℕ) : EqualBelow mem a b n ∨
    ∃ i < n, EqualBelow mem a b i ∧ mem (a + i) ≠ mem (b + i) := by
  by_cases h : ∃ i, i < n ∧ mem (a + i) ≠ mem (b + i)
  · have hfind := Nat.find_spec h
    refine .inr ⟨Nat.find h, hfind.1, ?_, hfind.2⟩
    intro j hj
    have hnot := Nat.find_min h hj
    exact not_not.mp fun hne => hnot ⟨Nat.lt_trans hj hfind.1, hne⟩
  · exact .inl fun j hj => not_not.mp fun hne => h ⟨j, hj, hne⟩

/-- The sign of two equal ranges. -/
theorem unsignedSign_of_equal (h : EqualBelow mem a b n) : unsignedSign mem a b n = 0 := by
  have hnone : ((List.range n).find? fun i => mem (a + i) != mem (b + i)) = none := by
    rw [List.find?_eq_none]
    intro i hi
    rw [h i (List.mem_range.mp hi), bne_self_eq_false]
    exact Bool.false_ne_true
  rw [unsignedSign, hnone, Option.elim_none]

/-- The sign is that of the first difference. -/
theorem unsignedSign_of_diff (hin : i < n) (hi : EqualBelow mem a b i)
    (hne : mem (a + i) ≠ mem (b + i)) :
    unsignedSign mem a b n = (byteDiff mem (a + i) (b + i)).sign := by
  have hsome : ((List.range n).find? fun i => mem (a + i) != mem (b + i)) = some i := by
    rw [List.find?_range_eq_some]
    refine ⟨bne_iff_ne.mpr hne, List.mem_range.mpr hin, ?_⟩
    intro j hj
    rw [hi j hj, bne_self_eq_false]
    rfl
  rw [unsignedSign, hsome, Option.elim_some]

/-! ## memcmp -/

/-- The loop over equal ranges runs to its end. -/
theorem memcmpLoop_of_equal (turns : ℕ) (h : EqualBelow mem a b (k + turns)) :
    memcmpLoop c mem a b turns k = 0 := by
  induction turns generalizing k with
  | zero => rfl
  | succ turns ih =>
      rw [memcmpLoop, if_neg (not_not.mpr (h k (by omega)))]
      exact ih (h.mono (by omega))

/-- The loop stops at the first difference. -/
theorem memcmpLoop_of_diff (turns : ℕ) (hk : k ≤ i) (hin : i < k + turns)
    (hi : EqualBelow mem a b i) (hne : mem (a + i) ≠ mem (b + i)) :
    memcmpLoop c mem a b turns k = c.toInt (mem (a + i)) - c.toInt (mem (b + i)) := by
  induction turns generalizing k with
  | zero => exact absurd hin (by omega)
  | succ turns ih =>
      rw [memcmpLoop]
      by_cases heq : k = i
      · rw [heq, if_pos hne]
      · rw [if_neg (not_not.mpr (hi k (by omega)))]
        exact ih (by omega) (by omega)

/-- Two signs are compared. -/
theorem sign_eq_sign_iff (x y : ℤ) : x.sign = y.sign ↔ (0 < x ↔ 0 < y) ∧ (x < 0 ↔ y < 0) := by
  rw [← Int.sign_eq_one_iff_pos, ← Int.sign_eq_one_iff_pos, ← Int.sign_eq_neg_one_iff_neg,
    ← Int.sign_eq_neg_one_iff_neg]
  rcases Int.sign_trichotomy x with hx | hx | hx <;> rcases Int.sign_trichotomy y with hy | hy | hy
  all_goals
    rw [hx, hy]
    decide

/-- **The order of the bytes with a sign** is that without one in each half of the range. -/
theorem sign_toInt_sub_iff {x y : BitVec 8} (hne : x ≠ y) :
    (x.toInt - y.toInt).sign = ((x.toNat : ℤ) - y.toNat).sign ↔ x.msb = y.msb := by
  have hx := x.isLt
  have hy := y.isLt
  have hnat : x.toNat ≠ y.toNat := fun h => hne (BitVec.eq_of_toNat_eq h)
  have hmsb : x.msb = y.msb ↔ (2 ^ 7 ≤ x.toNat ↔ 2 ^ 7 ≤ y.toNat) := by
    rw [BitVec.msb_eq_decide, BitVec.msb_eq_decide, decide_eq_decide]
  rw [sign_eq_sign_iff, hmsb, BitVec.toInt_eq_toNat_cond, BitVec.toInt_eq_toNat_cond]
  split_ifs <;> omega

/-- **When `memcmp` is right.** -/
theorem memcmp_sign_iff (c : PlainChar) (mem : Mem) (a b n : ℕ) :
    (memcmp c mem a b n).sign = unsignedSign mem a b n ↔ SameHalf c mem a b n := by
  rcases equalBelow_or_exists mem a b n with heq | ⟨i, hin, hi, hne⟩
  · rw [memcmp, memcmpLoop_of_equal n (by rwa [Nat.zero_add]), unsignedSign_of_equal heq]
    refine iff_of_true rfl (.inr ?_)
    intro i hin hi hne
    exact absurd (heq i hin) hne
  · have hhalf : SameHalf c mem a b n ↔
        c = .unsigned ∨ (mem (a + i)).msb = (mem (b + i)).msb := by
      refine or_congr_right ⟨fun h => h i hin hi hne, ?_⟩
      intro h k _ hk hkne
      rwa [← hi.unique hne hk hkne]
    rw [memcmp, memcmpLoop_of_diff n (Nat.zero_le i) (by rwa [Nat.zero_add]) hi hne,
      unsignedSign_of_diff hin hi hne, hhalf]
    cases c with
    | signed =>
        rw [or_iff_right (by decide)]
        exact sign_toInt_sub_iff hne
    | unsigned => exact iff_of_true rfl (.inl rfl)

/-! ## Strings -/

/-- The loops over strings go on before `k`. -/
def Scans (mem : Mem) (s t k : ℕ) : Prop := ∀ j < k, mem (s + j) ≠ 0 ∧ mem (s + j) = mem (t + j)

/-- The loops over strings end at `k`. -/
def Stops (mem : Mem) (s t k : ℕ) : Prop := ¬ (mem (s + k) ≠ 0 ∧ mem (s + k) = mem (t + k))

theorem Scans.head (h : Scans mem s t (k + 1)) : mem s ≠ 0 ∧ mem s = mem t := h 0 (Nat.succ_pos k)

/-- A scan stops at a difference or at the end. -/
theorem Stops.head (h : Stops mem s t 0) : ¬ (mem s ≠ 0 ∧ mem s = mem t) := h

/-- The rest of a scan. -/
theorem Scans.tail (h : Scans mem s t (k + 1)) : Scans mem (s + 1) (t + 1) k := by
  intro j hj
  have hj' := h (j + 1) (Nat.succ_lt_succ hj)
  rwa [← Nat.add_assoc, ← Nat.add_assoc, Nat.add_right_comm, Nat.add_right_comm t] at hj'

theorem Stops.tail (h : Stops mem s t (k + 1)) : Stops mem (s + 1) (t + 1) k := by
  rwa [Stops, ← Nat.add_assoc, ← Nat.add_assoc, Nat.add_right_comm, Nat.add_right_comm t] at h

/-- `strcmp` returns the difference where the scan stops. -/
theorem strcmp_eq (hscan : Scans mem s t k) (hstop : Stops mem s t k) (fuel : ℕ) :
    strcmp mem fuel s t = if k < fuel then some (byteDiff mem (s + k) (t + k)) else none := by
  induction k generalizing s t fuel with
  | zero =>
      cases fuel with
      | zero => rfl
      | succ fuel =>
          rw [strcmp, if_neg hstop.head, if_pos (Nat.succ_pos fuel)]
          rfl
  | succ k ih =>
      cases fuel with
      | zero => rfl
      | succ fuel =>
          rw [strcmp, if_pos hscan.head, ih hscan.tail hstop.tail fuel,
            Nat.add_right_comm, Nat.add_right_comm t]
          exact if_congr Nat.succ_lt_succ_iff.symm rfl rfl

/-- The loop of `strncmp` stops there too. -/
theorem strncmpLoop_eq (hscan : Scans mem s t k) (hstop : Stops mem s t k) (turns i : ℕ)
    (hk : k < turns) : strncmpLoop mem turns i s t = i + k := by
  induction k generalizing s t turns i with
  | zero =>
      obtain ⟨turns, rfl⟩ := Nat.exists_eq_add_of_lt hk
      rw [strncmpLoop, if_neg hstop.head]
      rfl
  | succ k ih =>
      obtain ⟨turns, rfl⟩ := Nat.exists_eq_succ_of_ne_zero (Nat.ne_zero_of_lt hk)
      rw [strncmpLoop, if_pos hscan.head,
        ih hscan.tail hstop.tail turns (i + 1) (Nat.succ_lt_succ_iff.mp hk)]
      omega

/-- `strncmp` returns the difference if it gets there. -/
theorem strncmp_eq (hscan : Scans mem s t k) (hstop : Stops mem s t k) (hk : k < n) :
    strncmp mem s t n = byteDiff mem (s + k) (t + k) := by
  have hloop := strncmpLoop_eq hscan hstop n 0 hk
  rw [Nat.zero_add] at hloop
  rw [strncmp, if_neg (by omega)]
  show (if strncmpLoop mem n 0 s t = n then 0 else _) = _
  rw [hloop, if_neg (by omega)]

/-- **Where the loops end**: within the shorter string, or with its NUL. -/
theorem exists_stop {ls lt : ℕ} (hs : IsString mem s ls) (ht : IsString mem t lt) :
    ∃ k ≤ min ls lt, Scans mem s t k ∧ Stops mem s t k := by
  have hend : Stops mem s t (min ls lt) := by
    rintro ⟨hne, heq⟩
    rcases Nat.le_total ls lt with hle | hle
    · rw [Nat.min_eq_left hle] at hne
      exact hne hs.2
    · rw [Nat.min_eq_right hle] at hne heq
      exact hne (heq.trans ht.2)
  classical
  have h : ∃ k, Stops mem s t k := ⟨_, hend⟩
  refine ⟨Nat.find h, Nat.find_le hend, ?_, Nat.find_spec h⟩
  intro j hj
  exact not_not.mp (Nat.find_min h hj)

/-- The bytes at which the loops end have the sign of the first bytes that differ up to the end of
the shorter string. -/
theorem sign_byteDiff_stop {ls lt : ℕ} (hs : IsString mem s ls) (ht : IsString mem t lt)
    (hk : k ≤ min ls lt) (hscan : Scans mem s t k) (hstop : Stops mem s t k) :
    (byteDiff mem (s + k) (t + k)).sign = unsignedSign mem s t (1 + min ls lt) := by
  have hbelow : EqualBelow mem s t k := fun j hj => (hscan j hj).2
  by_cases heq : mem (s + k) = mem (t + k)
  · -- both are the NUL of a string
    have hzero : mem (s + k) = 0 := not_not.mp fun hne => hstop ⟨hne, heq⟩
    have hls : ls ≤ k := Nat.not_lt.mp fun hlt => hs.1 k hlt hzero
    have hlt : lt ≤ k := Nat.not_lt.mp fun hlt => ht.1 k hlt (heq ▸ hzero)
    have hall : EqualBelow mem s t (1 + min ls lt) := by
      intro j hj
      rcases Nat.lt_or_ge j k with hjk | hjk
      · exact hbelow j hjk
      · rw [show j = k by omega, heq]
    rw [unsignedSign_of_equal hall, byteDiff, heq, Int.sub_self, Int.sign_zero]
  · rw [unsignedSign_of_diff (by omega) hbelow heq]

/-- **When the functions agree.** -/
theorem signs_agree_iff (c : PlainChar) (mem : Mem) :
    (∀ a b n, (memcmp c mem a b n).sign = unsignedSign mem a b n ↔ SameHalf c mem a b n) ∧
    (∀ s t ls lt, IsString mem s ls → IsString mem t lt →
      (SameSigns c mem s t (1 + min ls lt) ↔ SameHalf c mem s t (1 + min ls lt))) := by
  refine ⟨memcmp_sign_iff c mem, ?_⟩
  intro s t ls lt hs ht
  obtain ⟨k, hk, hscan, hstop⟩ := exists_stop hs ht
  have hsign := sign_byteDiff_stop hs ht hk hscan hstop
  have hstrn := strncmp_eq (n := 1 + min ls lt) hscan hstop (by omega)
  rw [← memcmp_sign_iff, SameSigns, hstrn, hsign]
  constructor
  · rintro ⟨fuel, r, -, -, hmem⟩
    exact hmem.symm
  · intro hmem
    refine ⟨k + 1, _, ?_, hsign, hmem.symm⟩
    rw [strcmp_eq hscan hstop, if_pos (Nat.lt_succ_self k)]

/-- The strings `"\x80"` at 0 and `"\x01"` at 2. -/
def highByte : Mem := fun a => if a = 0 then 0x80 else if a = 2 then 0x01 else 0

/-- The two strings of the example. -/
theorem isString_highByte : IsString highByte 0 1 ∧ IsString highByte 2 1 := by
  unfold IsString
  decide

/-- A byte above 127 is compared in both ways. -/
theorem highByte_signs_agree_iff :
    ((memcmp .signed highByte 0 2 1).sign = unsignedSign highByte 0 2 1 ↔
      SameHalf .signed highByte 0 2 1) ∧
    (SameSigns .unsigned highByte 0 2 2 ↔ SameHalf .unsigned highByte 0 2 2) :=
  ⟨(signs_agree_iff .signed highByte).1 0 2 1,
    (signs_agree_iff .unsigned highByte).2 0 2 1 1 isString_highByte.1 isString_highByte.2⟩

/-- `memcmp` takes `0x80` for -128. -/
theorem highByte_disagrees : memcmp .signed highByte 0 2 1 = -129 ∧
    unsignedSign highByte 0 2 1 = 1 ∧ strcmp highByte 1 0 2 = some 127 ∧
    ¬ SameSigns .signed highByte 0 2 2 := by
  refine ⟨by decide, by decide, by decide, ?_⟩
  rintro ⟨-, -, -, -, hsign⟩
  exact absurd hsign (by decide)

end Klib

end Bailuwan
