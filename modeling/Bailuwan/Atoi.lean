/-
# Decimal numbers there and back (`klib/src/stdlib.c`)

`atoi` reads what `sprintf` writes for `%d`, as far as there is no sign and the intermediate
sum does not overflow: the character is added before the code of `0` is taken away
(`roundTrip_iff`).
-/
import Bailuwan.Printf

namespace Bailuwan

namespace Klib

/-- The result of an operation on `int`; none where it overflows. -/
def toInt32 (x : ℤ) : Option ℤ := if -2 ^ 31 ≤ x ∧ x < 2 ^ 31 then some x else none

/-- `while (*nptr >= '0' && *nptr <= '9')` -/
def atoiDigits : List Char → ℤ → Option ℤ
  | [], x => some x
  | c :: nptr, x =>
      if isDigit c then do
        let x ← toInt32 (x * 10)
        let x ← toInt32 (x + c.toNat)
        let x ← toInt32 (x - '0'.toNat)
        atoiDigits nptr x
      else some x

/-- `atoi`; none where an operation overflows. -/
def atoi (nptr : List Char) : Option ℤ := atoiDigits (nptr.dropWhile fun c => c == ' ') 0

variable {m : DataModel}

/-- **A round trip**: `sprintf` ends with a string in its buffer, and `atoi` makes `x` of it; no
operation overflows. -/
def RoundTrip (m : DataModel) (spec : IntSpec) (x : BitVec 32) : Prop :=
  ∃ fuel s, sprintf (m := m) fuel (formatText [.int spec]) [.int x] =
    some ((s.length : ℤ), stringWrites s) ∧ atoi s = some x.toInt

/-! ## Reading -/

variable {ds s : List Char} {c : Char} {k n : ℕ}

/-- The codes of the digits. -/
theorem toNat_of_isDigit (h : isDigit c = true) : 48 ≤ c.toNat ∧ c.toNat ≤ 57 := by
  rw [isDigit, Bool.and_eq_true, decide_eq_true_iff, decide_eq_true_iff] at h
  exact h

/-- The three operations on a digit. -/
theorem atoiDigits_digit (hc : isDigit c = true) (x : ℤ) : atoiDigits (c :: ds) x =
    (toInt32 (x * 10)).bind fun x => (toInt32 (x + c.toNat)).bind fun x =>
      (toInt32 (x - 48)).bind (atoiDigits ds) := by
  rw [atoiDigits, if_pos hc]
  rfl

/-- A digit is read, if the sum with its character does not overflow. -/
theorem atoiDigits_cons (hc : isDigit c = true) : atoiDigits (c :: ds) k =
    if k * 10 + (c.toNat - 48) + 48 < 2 ^ 31 then
      atoiDigits ds (k * 10 + (c.toNat - 48) : ℕ) else none := by
  obtain ⟨hlo, hhi⟩ := toNat_of_isDigit hc
  rw [atoiDigits_digit hc]
  by_cases h : k * 10 + (c.toNat - 48) + 48 < 2 ^ 31
  · have hmul : toInt32 ((k : ℤ) * 10) = some ((k : ℤ) * 10) := if_pos (by omega)
    have hadd : toInt32 ((k : ℤ) * 10 + c.toNat) = some ((k : ℤ) * 10 + c.toNat) :=
      if_pos (by omega)
    have hsub : toInt32 ((k : ℤ) * 10 + c.toNat - 48) =
        some ((k * 10 + (c.toNat - 48) : ℕ) : ℤ) := by
      rw [toInt32, if_pos (by omega), Option.some_inj]
      omega
    rw [if_pos h, hmul, Option.bind_some, hadd, Option.bind_some, hsub, Option.bind_some]
  · have hadd : toInt32 ((k : ℤ) * 10 + c.toNat) = none := if_neg (by omega)
    rw [if_neg h]
    by_cases hmul : (k : ℤ) * 10 < 2 ^ 31
    · have hfirst : toInt32 ((k : ℤ) * 10) = some ((k : ℤ) * 10) := if_pos (by omega)
      rw [hfirst, Option.bind_some, hadd, Option.bind_none]
    · have hfirst : toInt32 ((k : ℤ) * 10) = none := if_neg (by omega)
      rw [hfirst, Option.bind_none]

/-- **Digits are read**, as long as the last sum fits. -/
theorem atoiDigits_eq (hds : ∀ c ∈ ds, isDigit c = true) (k : ℕ) :
    atoiDigits ds k =
      if ds = [] ∨ readDigits k ds + 48 < 2 ^ 31 then some (readDigits k ds : ℤ) else none := by
  induction ds generalizing k with
  | nil =>
      rw [if_pos (.inl rfl)]
      rfl
  | cons c ds ih =>
      have hread : readDigits k (c :: ds) = readDigits (k * 10 + (c.toNat - 48)) ds := rfl
      have hle := le_readDigits (k * 10 + (c.toNat - 48)) ds
      rw [atoiDigits_cons (hds c List.mem_cons_self),
        ih fun c hc => hds c (List.mem_cons_of_mem _ hc), hread]
      by_cases hfit : readDigits (k * 10 + (c.toNat - 48)) ds + 48 < 2 ^ 31
      · rw [if_pos (by omega), if_pos (.inr hfit), if_pos (.inr hfit)]
      · have hright : ¬ (c :: ds = [] ∨
            readDigits (k * 10 + (c.toNat - 48)) ds + 48 < 2 ^ 31) :=
          not_or.mpr ⟨List.cons_ne_nil c ds, hfit⟩
        rw [if_neg hright]
        split_ifs with hlt hor
        · -- no digits follow, so the sum is the last one
          rcases hor with rfl | hor
          · exact absurd hlt hfit
          · exact absurd hor hfit
        · rfl
        · rfl

/-- Spaces are skipped. -/
theorem dropWhile_spaces (k : ℕ) (hs : ∀ c ∈ s.head?, c ≠ ' ') :
    (List.replicate k ' ' ++ s).dropWhile (fun c => c == ' ') = s := by
  induction k with
  | zero =>
      cases s with
      | nil => rfl
      | cons c s =>
          have hc : (c == ' ') = false := beq_false_of_ne (hs c rfl)
          rw [List.replicate_zero, List.nil_append, List.dropWhile_cons, hc]
          rfl
  | succ k ih =>
      rw [List.replicate_succ, List.cons_append, List.dropWhile_cons]
      exact ih

/-- A digit is not skipped as a blank. -/
theorem isDigit_ne_space (h : isDigit c = true) : c ≠ ' ' := by
  rintro rfl
  exact absurd h (by decide)

/-! ## Numerals -/

/-- The digits of `vsnprintf` are those that `atoi` reads. -/
theorem digit_table : ∀ d < 10,
    isDigit (Conversion.d.digits.getD d '0') = true ∧
      (Conversion.d.digits.getD d '0').toNat - '0'.toNat = d := by decide

/-- A numeral consists of digits. -/
theorem isDigit_numeral (n : ℕ) : ∀ c ∈ Conversion.d.numeral n, isDigit c = true := by
  intro c hc
  rw [Conversion.numeral] at hc
  split_ifs at hc with h
  · rw [List.mem_singleton.mp hc]
    decide
  · obtain ⟨d, hd, rfl⟩ := List.mem_map.mp hc
    exact (digit_table d (Nat.digits_lt_base (by decide) (List.mem_reverse.mp hd))).1

/-- **The value of a numeral.** -/
theorem decimalValue_numeral (n : ℕ) : decimalValue (Conversion.d.numeral n) = n := by
  rw [Conversion.numeral]
  split_ifs with h
  · rw [h]
    rfl
  · rw [decimalValue, ← List.map_reverse, List.reverse_reverse, List.map_map]
    have hdigits : (Nat.digits Conversion.d.base n).map ((fun c : Char => c.toNat - '0'.toNat) ∘
        fun d => Conversion.d.digits.getD d '0') = Nat.digits 10 n := by
      refine (List.map_congr_left fun d hd => ?_).trans (List.map_id _)
      exact (digit_table d (Nat.digits_lt_base (by decide) hd)).2
    rw [hdigits, Nat.ofDigits_digits]

theorem readDigits_append (ds ds' : List Char) (k : ℕ) :
    readDigits k (ds ++ ds') = readDigits (readDigits k ds) ds' := List.foldl_append

/-- Zeros in front count for nothing. -/
theorem readDigits_zeros (k : ℕ) : readDigits 0 (List.replicate k '0') = 0 := by
  induction k with
  | zero => rfl
  | succ k ih => exact ih

/-- **What `atoi` makes of the output** of `%d`. -/
theorem atoi_padded (zero : Bool) (width : ℕ) (v : ℤ) :
    atoi (padded zero width (if v < 0 then ['-'] else []) (Conversion.d.numeral v.natAbs)) =
      if v < 0 then some 0 else if v + 48 < 2 ^ 31 then some v else none := by
  have hdigits := isDigit_numeral v.natAbs
  have hne := numeral_ne_nil .d v.natAbs
  have hread : readDigits 0 (Conversion.d.numeral v.natAbs) = v.natAbs := by
    rw [readDigits_eq, decimalValue_numeral]
  generalize Conversion.d.numeral v.natAbs = digits at hdigits hne hread
  have hspace : ∀ ds : List Char, (∀ c ∈ ds, isDigit c = true) → ∀ c ∈ ds.head?, c ≠ ' ' :=
    fun ds hds c hc => isDigit_ne_space (hds c (List.mem_of_mem_head? hc))
  by_cases hv : v < 0
  · -- a sign is not read
    rw [if_pos hv, if_pos hv, padded]
    cases zero with
    | true => rfl
    | false =>
        rw [if_neg Bool.false_ne_true, List.append_assoc, atoi, dropWhile_spaces _ (by simp)]
        rfl
  · have hall : ∀ k, ∀ c ∈ List.replicate k '0' ++ digits, isDigit c = true := by
      intro k c hc
      rcases List.mem_append.mp hc with hc | hc
      · rw [List.eq_of_mem_replicate hc]
        decide
      · exact hdigits c hc
    have hvalue : ∀ k, atoiDigits (List.replicate k '0' ++ digits) (0 : ℕ) =
        if v + 48 < 2 ^ 31 then some v else none := by
      intro k
      have hv' : ((v.natAbs : ℕ) : ℤ) = v := Int.natAbs_of_nonneg (not_lt.mp hv)
      rw [atoiDigits_eq (hall k), readDigits_append, readDigits_zeros, hread, hv']
      refine if_congr ?_ rfl rfl
      rw [or_iff_right (List.append_ne_nil_of_right_ne_nil _ hne)]
      omega
    rw [if_neg hv, if_neg hv, padded]
    cases zero with
    | true =>
        have hhead := fun k => dropWhile_spaces 0 (hspace _ (hall k))
        rw [if_pos rfl, List.nil_append, atoi]
        exact (congrArg (atoiDigits · 0) (hhead _)).trans (hvalue _)
    | false =>
        rw [if_neg Bool.false_ne_true, List.append_nil, atoi, dropWhile_spaces _ (hspace _ hdigits)]
        exact hvalue 0

/-! ## The round trip -/

/-- A string is known from what is written for it. -/
theorem stringWrites_injective {s t : List Char} (h : stringWrites s = stringWrites t) : s = t := by
  have hmap := congrArg (List.map Prod.fst) h
  rw [stringWrites, stringWrites, List.map_append, List.map_append, List.zipIdx_map_fst,
    List.zipIdx_map_fst] at hmap
  exact List.append_cancel_right hmap

/-- One specifier prints its padded numeral. -/
theorem fullOutput_int {spec : IntSpec} {a : Arg m} {v : ℤ} (hv : spec.value a = some v) :
    fullOutput [.int spec] [a] = some ((spec.output v).map fun c => (c, false)) := by
  rw [fullOutput, hv]
  exact congrArg some (List.append_nil _)

/-- Only a width that is an `int` is read. -/
theorem width_of_formatLoop {spec : IntSpec} {a : Arg m} {v : ℤ} (hv : spec.value a = some v)
    {cap fuel : ℕ} {o : Out}
    (h : formatLoop cap fuel (formatText [.int spec]) [a] (outAt m cap []) = some o) :
    decimalValue spec.width ≤ INT_MAX := by
  obtain ⟨front, digits, -, -, hconv⟩ := conversion_outAt cap [] hv [] []
  have hne : spec.text ++ [] ≠ [] := by simp [IntSpec.text]
  cases fuel with
  | zero => cases h
  | succ fuel =>
      rw [formatText_cons, Item.text, List.cons_append,
        show formatText [] = [] from rfl, formatLoop_conversion hne (head_text spec []), hconv] at h
      split_ifs at h with hw
      · exact hw
      · cases h

/-- The buffer of `sprintf` is as large as can be. -/
theorem toNat_sizeMax (m : DataModel) : 2 ^ 31 ≤ (BitVec.allOnes m.bits).toNat - 1 := by
  cases m <;> decide

/-- Padding fills up to the width. -/
theorem length_padded (zero : Bool) (width : ℕ) (sign digits : List Char) :
    (padded zero width sign digits).length = max width (sign.length + digits.length) := by
  rw [padded]
  split_ifs <;> simp only [List.length_append, List.length_replicate] <;> omega

/-- An `int` has at most ten digits. -/
theorem length_numeral (hn : n < 2 ^ 31) : (Conversion.d.numeral n).length ≤ 10 := by
  rw [Conversion.numeral]
  split_ifs
  · decide
  · rw [List.length_map, List.length_reverse, Conversion.base,
      Nat.digits_length_le_iff (by decide)]
    omega

/-- `%d` takes an `int` as it is. -/
theorem value_decimal {spec : IntSpec} (hd : spec.conversion = .d) (hl : spec.length = .none)
    (x : BitVec 32) : spec.value (Arg.int (m := m) x) = some x.toInt := by
  rw [IntSpec.value, hl, hd]
  rfl

/-- No character of an output is a terminating null. -/
theorem map_output (spec : IntSpec) (v : ℤ) :
    ((spec.output v).map fun c => (c, false)).map Prod.fst = spec.output v := by
  rw [List.map_map]
  exact List.map_id _

/-- The size that `sprintf` passes on is not 0. -/
theorem sizeMax_ne_zero (m : DataModel) : BitVec.allOnes m.bits ≠ 0 := by
  cases m <;> decide

/-- **What `sprintf` leaves in the buffer.** -/
theorem eq_output_of_sprintf {spec : IntSpec} {a : Arg m} {v : ℤ} (hv : spec.value a = some v)
    {fuel : ℕ} {result : ℤ}
    (h : sprintf fuel (formatText [.int spec]) [a] = some (result, stringWrites s)) :
    s = spec.output v ∧ decimalValue spec.width ≤ INT_MAX := by
  rw [sprintf, vsnprintf_eq] at h
  obtain ⟨o, hloop, heq⟩ := Option.map_eq_some_iff.mp h
  obtain ⟨hfits, rfl⟩ := formatLoop_returns (fullOutput_int hv) hloop
  have hlen : (spec.output v).length ≤ (BitVec.allOnes m.bits).toNat - 1 := (fits_iff _).mp hfits
  have hwrites := (Prod.mk.inj heq).2
  rw [writes_outAt, if_neg (sizeMax_ne_zero m), List.nil_append, map_output,
    List.take_of_length_le hlen] at hwrites
  exact ⟨(stringWrites_injective hwrites).symm, width_of_formatLoop hv hloop⟩

/-- `sprintf` writes any output that is not too long for its result. -/
theorem sprintf_eq_output {spec : IntSpec} {a : Arg m} {v : ℤ} (hv : spec.value a = some v)
    (hlen : (spec.output v).length < 2 ^ 31) : ∃ fuel,
      sprintf fuel (formatText [.int spec]) [a] =
        some (((spec.output v).length : ℤ), stringWrites (spec.output v)) := by
  have hle := hlen.le.trans (toNat_sizeMax m)
  have hfits : Fits ((BitVec.allOnes m.bits).toNat - 1) []
      ((spec.output v).map fun c => (c, false)) := (fits_iff _).mpr hle
  obtain ⟨N, hN⟩ := formatLoop_runs (fullOutput_int hv) (by rwa [List.length_map]) hfits
  have hresult := (result_eq_iff m (spec.output v).length).mpr hlen
  refine ⟨N, ?_⟩
  rw [sprintf, vsnprintf_eq, hN N le_rfl, Option.map_some, writes_outAt,
    if_neg (sizeMax_ne_zero m), List.nil_append, map_output, List.take_of_length_le hle]
  exact congrArg (fun r => some (r, _)) hresult

/-- **What comes back**: a number without a sign, if the code of its last character can be added
to it, and if its width is an `int`. -/
theorem roundTrip_iff (m : DataModel) (spec : IntSpec) (hd : spec.conversion = .d)
    (hl : spec.length = .none) (x : BitVec 32) : RoundTrip m spec x ↔
      0 ≤ x.toInt ∧ x.toInt ≤ 2147483599 ∧ decimalValue spec.width ≤ INT_MAX := by
  have hv := value_decimal (m := m) hd hl x
  have hout : spec.output x.toInt = padded spec.zero (decimalValue spec.width)
      (if x.toInt < 0 then ['-'] else []) (Conversion.d.numeral x.toInt.natAbs) := by
    rw [IntSpec.output, hd]
  have hatoi := atoi_padded spec.zero (decimalValue spec.width) x.toInt
  rw [← hout] at hatoi
  constructor
  · rintro ⟨fuel, s, hr, hs⟩
    obtain ⟨rfl, hwidth⟩ := eq_output_of_sprintf hv hr
    rw [hatoi] at hs
    split_ifs at hs with hneg hlast
    · have := Option.some_inj.mp hs
      omega
    · exact ⟨by omega, by omega, hwidth⟩
  · rintro ⟨hpos, hle, hwidth⟩
    have hneg : ¬ x.toInt < 0 := not_lt.mpr hpos
    have hlen : (spec.output x.toInt).length < 2 ^ 31 := by
      have hnumeral := length_numeral (n := x.toInt.natAbs) (by omega)
      rw [hout, if_neg hneg, length_padded, List.length_nil, Nat.zero_add]
      exact max_lt (Nat.lt_succ_of_le hwidth) (hnumeral.trans_lt (by decide))
    obtain ⟨fuel, hr⟩ := sprintf_eq_output hv hlen
    refine ⟨fuel, _, hr, ?_⟩
    rw [hatoi, if_neg hneg, if_pos (by omega)]

/-- `%d` -/
def plain : IntSpec where
  zero := false
  width := []
  length := .none
  conversion := .d
  isDigit_width _ hc := absurd hc List.not_mem_nil
  head_width := by decide

/-- The answer, printed and read. -/
theorem roundTrip_plain : RoundTrip .LP64 plain 42 ↔ 0 ≤ (42 : BitVec 32).toInt ∧
    (42 : BitVec 32).toInt ≤ 2147483599 ∧ decimalValue plain.width ≤ INT_MAX :=
  roundTrip_iff .LP64 plain rfl rfl 42

/-- The sign of -1 ends the number before its first digit. -/
theorem minusOne_not_read : atoi ['-', '1'] = some 0 ∧ ¬ RoundTrip .ILP32 plain (-1) := by
  refine ⟨rfl, ?_⟩
  rintro ⟨fuel, s, hr, hs⟩
  have hvalue : plain.value (Arg.int (m := .ILP32) (-1)) = some (-1 : BitVec 32).toInt :=
    value_decimal rfl rfl (-1)
  obtain ⟨rfl, -⟩ := eq_output_of_sprintf hvalue hr
  have houtput : plain.output (-1 : BitVec 32).toInt = ['-', '1'] := by decide
  rw [houtput] at hs
  exact absurd hs (by decide)

end Klib

end Bailuwan
