/-
# Formatted output against C99 (`klib/src/stdio.c`)

The formats that `vsnprintf` supports (`Item`), what C99 says that they put out
(`fullOutput`), and when `vsnprintf` puts out a truncation of it (`truncates_iff`).  That is
not always: once the buffer is full it has to do with the characters of `%%` only, as its
other loops do not advance there.

The proofs follow the output so far: after any prefix `P` of it the counters and the writes
are `outAt P`, as long as the function is still running.
-/
import Bailuwan.Stdio
import Mathlib.Data.Nat.Digits.Lemmas

namespace Bailuwan

namespace Klib

/-! ## Formats -/

/-- The conversions of integers. -/
inductive Conversion
  | d
  | u
  | x
  | X
  deriving DecidableEq, Repr

/-- The letter of a conversion. -/
def Conversion.char : Conversion → Char
  | .d => 'd'
  | .u => 'u'
  | .x => 'x'
  | .X => 'X'

/-- The letters of a length. -/
def Length.text : Length → List Char
  | .none => []
  | .l => ['l']
  | .ll => ['l', 'l']

/-- `%[0][width][l|ll](d|u|x|X)`; without the flag the width does not begin with `0`. -/
structure IntSpec where
  zero : Bool
  width : List Char
  length : Length
  conversion : Conversion
  isDigit_width : ∀ c ∈ width, isDigit c = true
  head_width : zero = false → width.head? ≠ some '0'

/-- A piece of a format: a character, or one of the specifiers that are understood. -/
inductive Item
  | char (c : Char) (h : c ≠ '%' ∧ c ≠ '\x00')
  | percent
  | str
  | int (spec : IntSpec)

/-- The text of a specifier of an integer, behind the percent sign. -/
def IntSpec.text (spec : IntSpec) : List Char :=
  (if spec.zero then ['0'] else []) ++ spec.width ++ spec.length.text ++ [spec.conversion.char]

/-- The text of a piece. -/
def Item.text : Item → List Char
  | .char c _ => [c]
  | .percent => ['%', '%']
  | .str => ['%', 's']
  | .int spec => '%' :: spec.text

/-- The text of a format. -/
def formatText (items : List Item) : List Char := items.flatMap Item.text

/-! ## The output of C99 -/

variable {m : DataModel}

/-- The value of an argument of the type of a conversion. -/
def Arg.value (signed : Bool) : Length → Arg m → Option ℤ
  | .none, .int v => some (if signed then v.toInt else v.toNat)
  | .l, .long v => some (if signed then v.toInt else v.toNat)
  | .ll, .longLong v => some (if signed then v.toInt else v.toNat)
  | _, _ => none

/-- The base in which a conversion prints. -/
def Conversion.base : Conversion → ℕ
  | .d | .u => 10
  | .x | .X => 16

/-- The digits of a conversion. -/
def Conversion.digits : Conversion → List Char
  | .X => "0123456789ABCDEF".toList
  | _ => "0123456789abcdef".toList

/-- A number in the base of the conversion, of one digit at least. -/
def Conversion.numeral (conv : Conversion) (n : ℕ) : List Char :=
  if n = 0 then ['0']
  else (Nat.digits conv.base n).reverse.map fun d => conv.digits.getD d '0'

/-- The number that decimal digits stand for. -/
def decimalValue (ds : List Char) : ℕ :=
  Nat.ofDigits 10 (ds.reverse.map fun c => c.toNat - '0'.toNat)

/-- Zeros between the sign and the digits, or spaces before the sign, up to the width. -/
def padded (zero : Bool) (width : ℕ) (sign digits : List Char) : List Char :=
  let fill := width - (sign.length + digits.length)
  if zero then sign ++ List.replicate fill '0' ++ digits
  else List.replicate fill ' ' ++ sign ++ digits

/-- What is printed for an integer, with its padding. -/
def IntSpec.output (spec : IntSpec) (v : ℤ) : List Char :=
  padded spec.zero (decimalValue spec.width) (if v < 0 then ['-'] else [])
    (spec.conversion.numeral v.natAbs)

/-- The integer that an argument is taken as, if it is of the right kind. -/
def IntSpec.value (spec : IntSpec) (a : Arg m) : Option ℤ :=
  a.value (spec.conversion = .d) spec.length

/-- The full output for arguments that match the format, and of each character whether it is
that of a `%%`. -/
def fullOutput : List Item → List (Arg m) → Option (List (Char × Bool))
  | [], _ => some []
  | .char c _ :: items, ap => (fullOutput items ap).map fun O => (c, false) :: O
  | .percent :: items, ap => (fullOutput items ap).map fun O => ('%', true) :: O
  | .str :: items, .str (some s) :: ap =>
      (fullOutput items ap).map fun O => s.val.map (fun c => (c, false)) ++ O
  | .int spec :: items, a :: ap => do
      let v ← spec.value a
      let O ← fullOutput items ap
      some ((spec.output v).map (fun c => (c, false)) ++ O)
  | _, _ => none

/-- The writes that put the string into the buffer. -/
def stringWrites (s : List Char) : List (Char × ℕ) := s.zipIdx ++ [('\x00', s.length)]

/-- **A truncation of `O`** for a buffer of size `n`: the call returns the length of `O`, writes
as much of it as fits and a zero, and nothing outside of the buffer. -/
def Truncates (n : BitVec m.bits) (fmt : List Char) (ap : List (Arg m)) (O : List Char) : Prop :=
  ∃ fuel writes, vsnprintf fuel n fmt ap = some ((O.length : ℤ), writes) ∧
    writes = (if n = 0 then [] else stringWrites (O.take (n.toNat - 1))) ∧
    ∀ p ∈ writes, p.2 < n.toNat

/-! ## Characters -/

/-- The counters and the writes after the output `P`. -/
def outAt (m : DataModel) (cap : ℕ) (P : List Char) : Out where
  pos := min P.length cap
  needed := P.length % 2 ^ m.bits
  writes := (P.take cap).zipIdx

variable {cap fuel : ℕ} {P s : List Char} {c : Char} {o : Out}

/-- The position is below the capacity while fewer characters than that are put. -/
theorem pos_outAt_lt_iff : (outAt m cap P).pos < cap ↔ P.length < cap := by
  change min P.length cap < cap ↔ _
  omega

/-- Every character adds one to what is needed. -/
theorem needed_concat (P : List Char) (c : Char) :
    (P.length % 2 ^ m.bits + 1) % 2 ^ m.bits = (P ++ [c]).length % 2 ^ m.bits := by
  rw [List.length_append, List.length_singleton, Nat.mod_add_mod]

/-- A character is put where there is room. -/
theorem put_outAt (h : P.length < cap) : (outAt m cap P).put m c = outAt m cap (P ++ [c]) := by
  have hP : P.take cap = P := List.take_of_length_le h.le
  have hPc : (P ++ [c]).take cap = P ++ [c] := List.take_of_length_le (by simpa using h)
  rw [outAt, outAt, Out.put, hP, hPc, List.zipIdx_append, List.zipIdx_singleton, needed_concat,
    min_eq_left h.le, min_eq_left (by simpa using h), List.length_append, Nat.zero_add]
  rfl

/-- A character is counted where there is no room. -/
theorem skip_outAt (h : cap ≤ P.length) : (outAt m cap P).skip m = outAt m cap (P ++ [c]) := by
  rw [outAt, outAt, Out.skip, needed_concat P c, List.take_append_of_le_length h,
    min_eq_right h, min_eq_right (by simp; omega)]

/-- Every character is put or counted. -/
theorem writeChar_outAt : writeChar m cap c (outAt m cap P) = outAt m cap (P ++ [c]) := by
  rw [writeChar]
  split_ifs with h
  · exact put_outAt (pos_outAt_lt_iff.mp h)
  · exact skip_outAt (not_lt.mp (mt pos_outAt_lt_iff.mpr h))

/-- Every character of a padding is put or counted. -/
theorem writePad_outAt (pad : ℕ) :
    writePad m cap c pad (outAt m cap P) = outAt m cap (P ++ List.replicate pad c) := by
  induction pad generalizing P with
  | zero => rw [writePad, List.replicate_zero, List.append_nil]
  | succ pad ih =>
      rw [writePad, writeChar_outAt, ih, List.append_assoc, List.singleton_append,
        List.replicate_succ]

/-- There is room for the characters. -/
theorem writeAll_outAt (h : s = [] ∨ P.length + s.length ≤ cap) (hf : s.length < fuel) :
    writeAll m cap fuel s (outAt m cap P) = some (outAt m cap (P ++ s)) := by
  induction s generalizing fuel P with
  | nil =>
      obtain ⟨fuel, rfl⟩ := Nat.exists_eq_succ_of_ne_zero (by omega : fuel ≠ 0)
      rw [writeAll, List.append_nil]
  | cons c s ih =>
      obtain ⟨fuel, rfl⟩ := Nat.exists_eq_succ_of_ne_zero (by omega : fuel ≠ 0)
      rw [List.length_cons] at hf
      have hle : P.length + (s.length + 1) ≤ cap := h.resolve_left (List.cons_ne_nil c s)
      have hlt : P.length < cap := by omega
      rw [writeAll, if_pos (pos_outAt_lt_iff.mpr hlt), put_outAt hlt,
        ih (.inr (by rw [List.length_append, List.length_singleton]; omega)) (by omega),
        List.append_assoc, List.singleton_append]

/-- **In a full buffer** the loop does not advance. -/
theorem writeAll_full (h : cap ≤ o.pos) : writeAll m cap fuel (c :: s) o = none := by
  induction fuel generalizing o with
  | zero => rfl
  | succ fuel ih =>
      rw [writeAll, if_neg (not_lt.mpr h)]
      exact ih h

/-- The loop only ends where there is room. -/
theorem writeAll_returns (h : writeAll m cap fuel s (outAt m cap P) = some o) :
    o = outAt m cap (P ++ s) ∧ (s = [] ∨ P.length + s.length ≤ cap) := by
  induction s generalizing fuel P with
  | nil =>
      cases fuel with
      | zero => cases h
      | succ fuel =>
          rw [writeAll, Option.some_inj] at h
          exact ⟨by rw [List.append_nil, h], .inl rfl⟩
  | cons c s ih =>
      rcases Nat.lt_or_ge P.length cap with hlt | hge
      · cases fuel with
        | zero => cases h
        | succ fuel =>
            rw [writeAll, if_pos (pos_outAt_lt_iff.mpr hlt), put_outAt hlt] at h
            obtain ⟨rfl, hs⟩ := ih h
            refine ⟨by rw [List.append_assoc, List.singleton_append], .inr ?_⟩
            rw [List.length_append, List.length_singleton] at hs
            rw [List.length_cons]
            rcases hs with rfl | hs
            · exact hlt
            · omega
      · rw [writeAll_full (not_lt.mp (mt pos_outAt_lt_iff.mp (not_lt.mpr hge)))] at h
        cases h

/-! ## Integers -/

/-- The loop makes the digits of a number that fits into the buffer. -/
theorem digitLoop_eq {digit : BitVec 64 → Char} {rest : BitVec 64 → BitVec 64} {b : ℕ}
    {f : ℕ → Char} (hb : 1 < b) (hdigit : ∀ v, digit v = f (v.toNat % b))
    (hrest : ∀ v, (rest v).toNat = v.toNat / b) {room : ℕ} {v : BitVec 64}
    (hv : v.toNat < b ^ room) (buf : List Char) :
    digitLoop digit rest room v buf = (Nat.digits b v.toNat).reverse.map f ++ buf := by
  induction room generalizing v buf with
  | zero =>
      have h0 : v.toNat = 0 := by simpa using hv
      rw [digitLoop, h0, Nat.digits_zero]
      rfl
  | succ room ih =>
      rw [digitLoop]
      split_ifs with hpos
      · have hpos' : 0 < v.toNat := by simpa [BitVec.lt_def] using hpos
        have hlt : (rest v).toNat < b ^ room := by
          rw [hrest]
          exact Nat.div_lt_of_lt_mul (by rwa [← pow_succ'])
        rw [ih hlt, hrest, Nat.digits_def' hb hpos', List.reverse_cons, List.map_append,
          List.map_singleton, hdigit, List.append_assoc, List.singleton_append]
      · have h0 : v.toNat = 0 := by simpa [BitVec.lt_def] using hpos
        rw [h0, Nat.digits_zero]
        rfl

/-- The digits of the decimal conversion. -/
theorem decDigit_eq (v : BitVec 64) :
    decDigit v = "0123456789abcdef".toList.getD (v.toNat % 10) '0' := by
  have htable : ∀ d < 10, Char.ofNat ('0'.toNat + d) =
      "0123456789abcdef".toList.getD d '0' := by decide
  rw [decDigit, BitVec.toNat_umod]
  exact htable _ (Nat.mod_lt _ (by decide))

/-- The lowest four bits are the remainder by 16. -/
theorem toNat_and_15 (v : BitVec 64) : (v &&& 0xF).toNat = v.toNat % 16 := by
  rw [BitVec.toNat_and]
  exact Nat.and_two_pow_sub_one_eq_mod v.toNat 4

/-- The digits of the hexadecimal conversion. -/
theorem hexDigit_eq (v : BitVec 64) (upper : Bool) :
    hexDigit (if upper then 'X' else 'x') v =
      (if upper then "0123456789ABCDEF" else "0123456789abcdef").toList.getD
        (v.toNat % 16) '0' := by
  have htable : ∀ upper : Bool, ∀ d < 16,
      (if d < 10 then Char.ofNat ('0'.toNat + d)
        else Char.ofNat ((if (if upper then 'X' else 'x') = 'X' then 'A' else 'a').toNat +
          (d - 10))) =
      (if upper then "0123456789ABCDEF" else "0123456789abcdef").toList.getD d '0' := by decide
  rw [hexDigit, toNat_and_15]
  exact htable upper _ (Nat.mod_lt _ (by decide))

/-- **The digits in the buffer** are the numeral of the conversion. -/
theorem digitBuf_eq (conv : Conversion) (v : BitVec 64) :
    digitBuf conv.char v = some (conv.numeral v.toNat) := by
  rw [digitBuf, Conversion.numeral]
  have h0 : v = 0 ↔ v.toNat = 0 := by rw [← BitVec.toNat_inj]; rfl
  by_cases hv : v.toNat = 0
  · rw [if_pos (h0.mpr hv), if_pos hv]
  · rw [if_neg (mt h0.mp hv), if_neg hv]
    have hdec : digitLoop decDigit (fun v => v / 10) 128 v [] =
        (Nat.digits 10 v.toNat).reverse.map
          fun d => "0123456789abcdef".toList.getD d '0' := by
      rw [digitLoop_eq (b := 10) (f := fun d => "0123456789abcdef".toList.getD d '0') (by decide)
        decDigit_eq (fun v => BitVec.toNat_udiv) (v.isLt.trans (by decide)), List.append_nil]
    have hhex : ∀ upper : Bool, digitLoop (hexDigit (if upper then 'X' else 'x'))
        (fun v => v >>> 4) 128 v [] = (Nat.digits 16 v.toNat).reverse.map fun d =>
          (if upper then "0123456789ABCDEF" else "0123456789abcdef").toList.getD d '0' := by
      intro upper
      rw [digitLoop_eq (b := 16) (f := fun d => (if upper then "0123456789ABCDEF"
          else "0123456789abcdef").toList.getD d '0') (by decide)
        (fun v => hexDigit_eq v upper) (fun v => ?_) (v.isLt.trans (by decide)), List.append_nil]
      rw [BitVec.toNat_ushiftRight, Nat.shiftRight_eq_div_pow]
    cases conv with
    | d => exact congrArg some hdec
    | u => exact congrArg some hdec
    | x => exact congrArg some (hhex false)
    | X => exact congrArg some (hhex true)

/-- A numeral has a digit. -/
theorem numeral_ne_nil (conv : Conversion) (n : ℕ) : conv.numeral n ≠ [] := by
  rw [Conversion.numeral]
  split_ifs with h
  · exact List.cons_ne_nil _ _
  · simpa [Nat.digits_ne_nil_iff_ne_zero] using h

/-- `print_integer` with the digits that it finds. -/
theorem printInteger_eq (cap fuel : ℕ) (negative zero : Bool) (v : BitVec 64) (width : ℕ)
    (conv : Conversion) (o : Out) : printInteger m cap fuel negative v zero width conv.char o =
      if negative then
        if zero ∧ width > 0 then
          writeAll m cap fuel (conv.numeral v.toNat) (writePad m cap '0'
            ((width : ℤ) - 1 - (conv.numeral v.toNat).length).toNat (writeChar m cap '-' o))
        else
          writeAll m cap fuel (conv.numeral v.toNat) (writeChar m cap '-' (writePad m cap ' '
            ((width : ℤ) - 1 - (conv.numeral v.toNat).length).toNat o))
      else
        writeAll m cap fuel (conv.numeral v.toNat) (writePad m cap (if zero then '0' else ' ')
          ((width : ℤ) - (conv.numeral v.toNat).length).toNat o) := by
  rw [printInteger, digitBuf_eq]
  rfl

/-- **The four cases of the padding.**  The last thing that is written are the digits. -/
theorem printInteger_outAt (cap : ℕ) (P : List Char) (negative zero : Bool) (v : BitVec 64)
    (width : ℕ) (conv : Conversion) : ∃ front,
      padded zero width (if negative then ['-'] else []) (conv.numeral v.toNat) =
        front ++ conv.numeral v.toNat ∧
      ∀ fuel, printInteger m cap fuel negative v zero width conv.char (outAt m cap P) =
        writeAll m cap fuel (conv.numeral v.toNat) (outAt m cap (P ++ front)) := by
  have hpos := List.length_pos_of_ne_nil (numeral_ne_nil conv v.toNat)
  simp only [printInteger_eq]
  generalize conv.numeral v.toNat = digits at hpos ⊢
  cases negative with
  | false =>
      have hfill : ((width : ℤ) - digits.length).toNat = width - (0 + digits.length) := by omega
      refine ⟨List.replicate (width - (0 + digits.length)) (if zero then '0' else ' '), ?_, ?_⟩
      · cases zero <;> simp [padded]
      · intro fuel
        rw [if_neg Bool.false_ne_true, writePad_outAt, hfill]
  | true =>
      have hfill : ((width : ℤ) - 1 - digits.length).toNat = width - (1 + digits.length) := by
        omega
      by_cases hzero : zero = true ∧ width > 0
      · refine ⟨'-' :: List.replicate (width - (1 + digits.length)) '0', ?_, fun fuel => ?_⟩
        · rw [padded, hzero.1]
          simp
        · rw [if_pos rfl, if_pos hzero, writeChar_outAt, writePad_outAt, hfill,
            List.append_assoc, List.singleton_append]
      · refine ⟨List.replicate (width - (1 + digits.length)) ' ' ++ ['-'], ?_, fun fuel => ?_⟩
        · -- without a width there is nothing to fill
          cases hz : zero with
          | false => simp [padded]
          | true =>
              have hwidth : width = 0 := by
                by_contra hne
                exact hzero ⟨hz, Nat.pos_of_ne_zero hne⟩
              simp [padded, hwidth]
        · rw [if_pos rfl, if_neg hzero, writePad_outAt, writeChar_outAt, hfill,
            List.append_assoc]

/-! ## The width -/

/-- The value of digits that are read one after the other. -/
def readDigits (k : ℕ) (ds : List Char) : ℕ :=
  ds.foldl (fun n c => n * 10 + (c.toNat - '0'.toNat)) k

/-- `vsnprintf` reads a width as a decimal number. -/
theorem readDigits_eq (ds : List Char) : readDigits 0 ds = decimalValue ds := by
  induction ds using List.reverseRecOn with
  | nil => rfl
  | append_singleton ds c ih =>
      have hread : readDigits 0 (ds ++ [c]) = readDigits 0 ds * 10 + (c.toNat - '0'.toNat) := by
        rw [readDigits, List.foldl_append]
        rfl
      have hvalue : decimalValue (ds ++ [c]) =
          (c.toNat - '0'.toNat) + 10 * decimalValue ds := by
        rw [decimalValue, List.reverse_append, List.reverse_singleton, List.singleton_append,
          List.map_cons, Nat.ofDigits_cons]
        rfl
      rw [hread, hvalue, ih]
      omega

/-- Reading digits makes a number no smaller. -/
theorem le_readDigits (k : ℕ) (ds : List Char) : k ≤ readDigits k ds := by
  induction ds generalizing k with
  | nil => exact le_rfl
  | cons c ds ih =>
      refine le_trans ?_ (ih (k * 10 + (c.toNat - '0'.toNat)))
      omega

/-- The width is read up to the next character, unless it overflows. -/
theorem parseWidth_eq {ds f : List Char} (hds : ∀ c ∈ ds, isDigit c = true)
    (hf : ∀ c ∈ f.head?, isDigit c = false) {k : ℕ} (hk : k ≤ INT_MAX) :
    parseWidth (ds ++ f) k =
      if readDigits k ds ≤ INT_MAX then some (readDigits k ds, f) else none := by
  induction ds generalizing k with
  | nil =>
      rw [List.nil_append, readDigits, List.foldl_nil, if_pos hk]
      cases f with
      | nil => rfl
      | cons c f => rw [parseWidth, hf c rfl, if_neg Bool.false_ne_true]
  | cons c ds ih =>
      rw [List.cons_append, parseWidth, hds c List.mem_cons_self, if_pos rfl]
      have hread : readDigits k (c :: ds) = readDigits (k * 10 + (c.toNat - '0'.toNat)) ds := rfl
      have hle := le_readDigits (k * 10 + (c.toNat - '0'.toNat)) ds
      by_cases hw : k * 10 + (c.toNat - '0'.toNat) ≤ INT_MAX
      · rw [hread, if_pos hw, ih (fun c hc => hds c (List.mem_cons_of_mem _ hc)) hw]
      · rw [if_neg hw, hread, if_neg (by omega)]

/-! ## Conversions -/

/-- The sign and the absolute value that are printed. -/
def Conversion.read (conv : Conversion) (length : Length) (a : Arg m) :
    Option (Bool × BitVec 64) :=
  if conv = .d then (a.signed length).map fun llv => (llv.slt 0, absVal llv)
  else (a.unsigned length).map fun uv => (false, uv)

theorem bits_le (m : DataModel) : 32 ≤ m.bits ∧ m.bits ≤ 64 := by
  cases m <;> decide

/-- A value is less than 0 if its sign says so. -/
theorem slt_zero (llv : BitVec 64) : llv.slt 0 = decide (llv.toInt < 0) := by
  rw [BitVec.slt_eq_decide]
  rfl

/-- The absolute value, also of the smallest number. -/
theorem absVal_eq (llv : BitVec 64) : (absVal llv).toNat = llv.toInt.natAbs := by
  have hlt := llv.isLt
  have hslt := slt_zero llv
  by_cases h : llv.toInt < 0
  · rw [absVal, hslt, decide_eq_true h, if_pos rfl]
    rw [BitVec.toInt_eq_toNat_cond] at h ⊢
    simp only [BitVec.toNat_add, BitVec.toNat_neg]
    split_ifs at h ⊢ <;> omega
  · rw [absVal, hslt, decide_eq_false h, if_neg Bool.false_ne_true]
    rw [BitVec.toInt_eq_toNat_cond] at h ⊢
    split_ifs at h ⊢ <;> omega

/-- A signed argument is fetched as its value. -/
theorem signed_eq {length : Length} {a : Arg m} {v : ℤ} (h : a.value true length = some v) :
    ∃ llv, a.signed length = some llv ∧ llv.toInt = v := by
  obtain ⟨-, hbits⟩ := bits_le m
  cases a with
  | int w =>
      cases length <;> simp only [Arg.value, reduceCtorEq] at h
      exact ⟨_, rfl, (BitVec.toInt_signExtend_of_le (by decide)).trans (Option.some_inj.mp h)⟩
  | long w =>
      cases length <;> simp only [Arg.value, reduceCtorEq] at h
      exact ⟨_, rfl, (BitVec.toInt_signExtend_of_le hbits).trans (Option.some_inj.mp h)⟩
  | longLong w =>
      cases length <;> simp only [Arg.value, reduceCtorEq] at h
      exact ⟨w, rfl, Option.some_inj.mp h⟩
  | str w => cases length <;> simp only [Arg.value, reduceCtorEq] at h

/-- An unsigned argument is fetched as its value. -/
theorem unsigned_eq {length : Length} {a : Arg m} {v : ℤ} (h : a.value false length = some v) :
    ∃ uv, a.unsigned length = some uv ∧ (uv.toNat : ℤ) = v := by
  obtain ⟨-, hbits⟩ := bits_le m
  cases a with
  | int w =>
      cases length <;> simp only [Arg.value, reduceCtorEq] at h
      refine ⟨_, rfl, Eq.trans ?_ (Option.some_inj.mp h)⟩
      rw [BitVec.toNat_setWidth_of_le (by decide)]
      rfl
  | long w =>
      cases length <;> simp only [Arg.value, reduceCtorEq] at h
      refine ⟨_, rfl, Eq.trans ?_ (Option.some_inj.mp h)⟩
      rw [BitVec.toNat_setWidth_of_le hbits]
      rfl
  | longLong w =>
      cases length <;> simp only [Arg.value, reduceCtorEq] at h
      exact ⟨w, rfl, Option.some_inj.mp h⟩
  | str w => cases length <;> simp only [Arg.value, reduceCtorEq] at h

/-- **What is read** is the value of the argument. -/
theorem read_eq (conv : Conversion) {length : Length} {a : Arg m} {v : ℤ}
    (h : a.value (conv = .d) length = some v) :
    ∃ abs, conv.read length a = some (decide (v < 0), abs) ∧ abs.toNat = v.natAbs := by
  by_cases hd : conv = .d
  · rw [decide_eq_true hd] at h
    obtain ⟨llv, hllv, rfl⟩ := signed_eq h
    refine ⟨absVal llv, ?_, absVal_eq llv⟩
    rw [Conversion.read, if_pos hd, hllv, Option.map_some, slt_zero]
  · rw [decide_eq_false hd] at h
    obtain ⟨uv, huv, rfl⟩ := unsigned_eq h
    refine ⟨uv, ?_, by simp⟩
    rw [Conversion.read, if_neg hd, huv]
    simp

/-- The specifier of an integer. -/
theorem specifier_int (zeroPad : Bool) (width : ℕ) (length : Length) (conv : Conversion)
    (f : List Char) (a : Arg m) (ap : List (Arg m)) :
    specifier cap fuel zeroPad width (length.text ++ conv.char :: f) (a :: ap) o =
      (conv.read length a).bind fun r =>
        (printInteger m cap fuel r.1 r.2 zeroPad width conv.char o).map fun o => (f, ap, o) := by
  have hparse : parseLength (length.text ++ conv.char :: f) = (length, conv.char :: f) := by
    cases length <;> cases conv <;> rfl
  have hs : ∀ c g, length.text ++ conv.char :: f = c :: g → c ≠ 's' := by
    intro c g h
    cases length <;> cases conv <;> cases h <;> decide
  obtain ⟨c, g, htext⟩ : ∃ c g, length.text ++ conv.char :: f = c :: g :=
    List.exists_cons_of_ne_nil (by simp)
  rw [htext] at hparse ⊢
  have hchars : conv.char ≠ 'd' ↔ conv ≠ .d := by cases conv <;> decide
  have hunsigned : conv ≠ .d → conv.char = 'u' ∨ conv.char = 'x' ∨ conv.char = 'X' := by
    cases conv <;> decide
  simp only [specifier, if_neg (hs c g htext), hparse, Conversion.read]
  by_cases hd : conv = .d
  · rw [if_pos (by rw [hd]; rfl), if_pos hd]
    cases a.signed length with
    | none => rfl
    | some llv =>
        change (printInteger m cap fuel (llv.slt 0) (absVal llv) zeroPad width conv.char o).bind _ =
          (printInteger m cap fuel (llv.slt 0) (absVal llv) zeroPad width conv.char o).map _
        exact Option.map_eq_bind.symm
  · rw [if_neg (hchars.mpr hd), if_pos (hunsigned hd), if_neg hd]
    cases a.unsigned length with
    | none => rfl
    | some uv =>
        change (printInteger m cap fuel false uv zeroPad width conv.char o).bind _ =
          (printInteger m cap fuel false uv zeroPad width conv.char o).map _
        exact Option.map_eq_bind.symm

/-- `%s` writes its string. -/
theorem specifier_str (zeroPad : Bool) (width : ℕ) (f : List Char) (s : CString)
    (ap : List (Arg m)) : specifier cap fuel zeroPad width ('s' :: f) (.str (some s) :: ap) o =
      (writeAll m cap fuel s.val o).map fun o => (f, ap, o) := by
  rw [specifier, if_pos rfl]
  cases h : writeAll m cap fuel s.val o with
  | none => simp [h]
  | some o => simp [h]

/-- No digit comes after the width of a specifier. -/
theorem head_specifier (length : Length) (conv : Conversion) (f : List Char) :
    ∀ c ∈ (length.text ++ conv.char :: f).head?, isDigit c = false ∧ c ≠ '0' ∧ c ≠ '%' := by
  intro c hc
  cases length <;> cases conv <;> obtain rfl := Option.some_inj.mp hc <;> decide

/-- A specifier is written part by part. -/
theorem text_append (spec : IntSpec) (f : List Char) : spec.text ++ f =
    (if spec.zero then ['0'] else []) ++
      (spec.width ++ (spec.length.text ++ spec.conversion.char :: f)) := by
  simp [IntSpec.text]

/-- An integer conversion is not taken for a `%%`. -/
theorem head_text (spec : IntSpec) (f : List Char) : (spec.text ++ f).head? ≠ some '%' := by
  rw [text_append]
  intro h
  cases hz : spec.zero with
  | true =>
      rw [hz] at h
      exact absurd (Option.some_inj.mp h) (by decide)
  | false =>
      rw [hz, if_neg Bool.false_ne_true, List.nil_append] at h
      cases hw : spec.width with
      | nil =>
          rw [hw, List.nil_append] at h
          exact (head_specifier spec.length spec.conversion f '%' h).2.2 rfl
      | cons c ds =>
          rw [hw] at h
          obtain rfl : c = '%' := Option.some_inj.mp h
          exact absurd (spec.isDigit_width '%' (by rw [hw]; exact List.mem_cons_self)) (by decide)

/-- The flag is taken off before the width. -/
theorem conversion_int (spec : IntSpec) (f : List Char) (ap : List (Arg m)) :
    conversion cap fuel (spec.text ++ f) ap o =
      (parseWidth (spec.width ++ (spec.length.text ++ spec.conversion.char :: f)) 0).bind
        fun r => specifier cap fuel spec.zero r.1 r.2 ap o := by
  rw [text_append]
  cases hz : spec.zero with
  | true => rfl
  | false =>
      have hhead : ¬ (spec.width ++ (spec.length.text ++ spec.conversion.char :: f)).head? =
          some '0' := by
        intro h
        cases hw : spec.width with
        | nil =>
            rw [hw, List.nil_append] at h
            exact (head_specifier spec.length spec.conversion f '0' h).2.1 rfl
        | cons c ds =>
            rw [hw] at h
            exact spec.head_width hz (by rw [hw]; exact h)
      simp only [conversion, Bool.false_eq_true, if_false, List.nil_append, hhead, decide_false]
      rfl

/-- An integer: its sign and padding, and then its digits. -/
theorem conversion_outAt (cap : ℕ) (P : List Char) {spec : IntSpec} {a : Arg m} {v : ℤ}
    (hv : spec.value a = some v) (f : List Char) (ap : List (Arg m)) : ∃ front digits, digits ≠ [] ∧
      spec.output v = front ++ digits ∧
      ∀ fuel, conversion cap fuel (spec.text ++ f) (a :: ap) (outAt m cap P) =
        if decimalValue spec.width ≤ INT_MAX then
          (writeAll m cap fuel digits (outAt m cap (P ++ front))).map fun o => (f, ap, o)
        else none := by
  obtain ⟨abs, hread, habs⟩ := read_eq spec.conversion hv
  obtain ⟨front, hpad, hprint⟩ := printInteger_outAt (m := m) cap P
    (decide (v < 0)) spec.zero abs (decimalValue spec.width) spec.conversion
  refine ⟨front, spec.conversion.numeral v.natAbs, numeral_ne_nil _ _, ?_, ?_⟩
  · rw [← habs, ← hpad, IntSpec.output, habs]
    simp only [decide_eq_true_eq]
  · have hdigit : ∀ c ∈ (spec.length.text ++ spec.conversion.char :: f).head?,
        isDigit c = false := fun c hc => (head_specifier _ _ _ c hc).1
    intro fuel
    rw [conversion_int, parseWidth_eq spec.isDigit_width hdigit (Nat.zero_le _), readDigits_eq]
    split_ifs with hw
    · rw [Option.bind_some, specifier_int, hread, Option.bind_some, hprint, habs]
    · rfl

/-! ## Items -/

/-- At the end of the format the loop stops. -/
theorem formatLoop_nil (ap : List (Arg m)) : formatLoop cap (fuel + 1) [] ap o = some o := rfl

/-- `%%` puts a percent sign. -/
theorem formatLoop_percent (f : List Char) (ap : List (Arg m)) :
    formatLoop cap (fuel + 1) ('%' :: '%' :: f) ap (outAt m cap P) =
      formatLoop cap fuel f ap (outAt m cap (P ++ ['%'])) := by
  rw [formatLoop, if_neg (by decide), writeChar_outAt]

/-- A conversion that is neither a `%` nor the end. -/
theorem formatLoop_conversion {f : List Char} (hne : f ≠ []) (h : f.head? ≠ some '%')
    (ap : List (Arg m)) : formatLoop cap (fuel + 1) ('%' :: f) ap o =
      (conversion cap fuel f ap o).bind fun r => formatLoop cap fuel r.1 r.2.1 r.2.2 := by
  obtain ⟨c, g, rfl⟩ := List.exists_cons_of_ne_nil hne
  have hc : c ≠ '%' := fun hc => h (by rw [hc]; rfl)
  rw [formatLoop, if_neg (by decide)]
  · rfl
  · exact List.cons_ne_nil c g
  · intro g' heq
    exact hc (List.cons.inj heq).1

/-- A character is put where there is room, and is looked at again where there is none. -/
theorem formatLoop_char (hc : c ≠ '%') (f : List Char) (ap : List (Arg m)) :
    formatLoop cap (fuel + 1) (c :: f) ap o =
      if o.pos < cap then formatLoop cap fuel f ap (o.put m c)
      else formatLoop cap fuel (c :: f) ap (o.skip m) := by
  conv_lhs => unfold formatLoop
  exact if_pos hc

/-- In a full buffer a literal character is not passed. -/
theorem formatLoop_full (hc : c ≠ '%') (h : cap ≤ o.pos) (f : List Char) (ap : List (Arg m)) :
    formatLoop cap fuel (c :: f) ap o = none := by
  induction fuel generalizing o with
  | zero => rfl
  | succ fuel ih =>
      rw [formatLoop_char hc, if_neg (not_lt.mpr h)]
      exact ih h

/-- Only characters of `%%` come after the buffer is full. -/
def Fits (cap : ℕ) (P : List Char) (T : List (Char × Bool)) : Prop :=
  ∀ p ∈ T.drop (cap - P.length), p.2 = true

/-- The item is put out as `T`, and the format goes on with `f` and the arguments `ap'`. -/
structure Emits (cap : ℕ) (item : Item) (f : List Char) (ap ap' : List (Arg m)) (P : List Char)
    (T : List (Char × Bool)) : Prop where
  runs : T.length < 2 ^ 31 → Fits cap P T → ∀ fuel > T.length,
    formatLoop cap (fuel + 1) (item.text ++ f) ap (outAt m cap P) =
      formatLoop cap fuel f ap' (outAt m cap (P ++ T.map Prod.fst))
  returns : ∀ fuel o, formatLoop cap fuel (item.text ++ f) ap (outAt m cap P) = some o →
    Fits cap P T ∧ ∃ fuel', formatLoop cap fuel' f ap' (outAt m cap (P ++ T.map Prod.fst)) = some o

/-- Other characters fit if there is room for them. -/
theorem fits_iff (T : List Char) :
    Fits cap P (T.map fun c => (c, false)) ↔ T.length ≤ cap - P.length := by
  rw [Fits, ← List.drop_eq_nil_iff, ← List.map_drop]
  constructor
  · intro h
    rw [List.eq_nil_iff_forall_not_mem]
    intro c hc
    exact Bool.false_ne_true (h _ (List.mem_map_of_mem hc))
  · intro h p hp
    rw [h] at hp
    cases hp

/-- An ordinary character emits itself. -/
theorem emits_char (hc : c ≠ '%' ∧ c ≠ '\x00') (f : List Char) (ap : List (Arg m)) :
    Emits cap (.char c hc) f ap ap P [(c, false)] where
  runs _ hfits fuel _ := by
    have hlt : P.length < cap := by
      have := (fits_iff [c]).mp hfits
      rw [List.length_singleton] at this
      omega
    rw [Item.text, List.singleton_append, formatLoop_char hc.1,
      if_pos (pos_outAt_lt_iff.mpr hlt), put_outAt hlt]
    rfl
  returns fuel o h := by
    rw [Item.text, List.singleton_append] at h
    rcases Nat.lt_or_ge P.length cap with hlt | hge
    · cases fuel with
      | zero => cases h
      | succ fuel =>
          rw [formatLoop_char hc.1, if_pos (pos_outAt_lt_iff.mpr hlt), put_outAt hlt] at h
          refine ⟨(fits_iff [c]).mpr ?_, fuel, h⟩
          rw [List.length_singleton]
          omega
    · rw [formatLoop_full hc.1 (not_lt.mp (mt pos_outAt_lt_iff.mp (not_lt.mpr hge)))] at h
      cases h

/-- `%%` emits a percent sign. -/
theorem emits_percent (f : List Char) (ap : List (Arg m)) :
    Emits cap .percent f ap ap P [('%', true)] where
  runs _ _ fuel _ := formatLoop_percent f ap
  returns fuel o h := by
    refine ⟨fun p hp => ?_, ?_⟩
    · rw [List.mem_singleton.mp (List.mem_of_mem_drop hp)]
    · cases fuel with
      | zero => cases h
      | succ fuel => exact ⟨fuel, (formatLoop_percent f ap).symm.trans h⟩

/-- **A conversion that ends in a loop**: what is in front of the loop is put out in any case. -/
theorem emits_of_writeAll {item : Item} {f : List Char} (front : List Char)
    {ap ap' : List (Arg m)} {p : Prop} [Decidable p] (hs : s = [] → front = [])
    (hp : (front ++ s).length < 2 ^ 31 → p)
    (h : ∀ fuel, formatLoop cap (fuel + 1) (item.text ++ f) ap (outAt m cap P) =
      if p then (writeAll m cap fuel s (outAt m cap (P ++ front))).bind
        (formatLoop cap fuel f ap') else none) :
    Emits cap item f ap ap' P ((front ++ s).map fun c => (c, false)) where
  runs hlen hfits fuel hfuel := by
    rw [List.length_map] at hlen hfuel
    rw [fits_iff] at hfits
    have hroom : s = [] ∨ (P ++ front).length + s.length ≤ cap := by
      by_cases hnil : s = []
      · exact .inl hnil
      · right
        have := List.length_pos_of_ne_nil hnil
        rw [List.length_append] at hfits ⊢
        omega
    have hfuel' : s.length < fuel := by
      rw [List.length_append] at hfuel
      omega
    rw [h, if_pos (hp hlen), writeAll_outAt hroom hfuel', Option.bind_some, List.map_map]
    simp [Function.comp_def]
  returns fuel o hr := by
    cases fuel with
    | zero => cases hr
    | succ fuel =>
        rw [h] at hr
        split_ifs at hr with hyes
        obtain ⟨o', hwrite, hrest⟩ := Option.bind_eq_some_iff.mp hr
        obtain ⟨rfl, hroom⟩ := writeAll_returns hwrite
        refine ⟨(fits_iff _).mpr ?_, fuel, ?_⟩
        · rcases hroom with rfl | hroom
          · rw [hs rfl]
            exact Nat.zero_le _
          · rw [List.length_append] at hroom ⊢
            omega
        · rw [List.map_map, ← hrest]
          simp [Function.comp_def]

/-- `%s` emits its string. -/
theorem emits_str (t : CString) (f : List Char) (ap : List (Arg m)) :
    Emits cap .str f (.str (some t) :: ap) ap P (t.val.map fun c => (c, false)) := by
  refine emits_of_writeAll [] (p := True) (fun _ => rfl) (fun _ => trivial)
    fun fuel => ?_
  have hconv : conversion cap fuel ('s' :: f) (.str (some t) :: ap) (outAt m cap P) =
      (writeAll m cap fuel t.val (outAt m cap P)).map fun o => (f, ap, o) :=
    specifier_str false 0 f t ap
  rw [if_pos trivial, Item.text, List.cons_append, List.singleton_append,
    formatLoop_conversion (List.cons_ne_nil _ _) (by simp), hconv, Option.bind_map, List.append_nil]
  rfl

/-- An output is not shorter than the width of its specifier. -/
theorem length_output (spec : IntSpec) (v : ℤ) :
    decimalValue spec.width ≤ (spec.output v).length := by
  rw [IntSpec.output, padded]
  split_ifs <;> simp only [List.length_append, List.length_replicate, List.length_nil,
    List.length_singleton] <;> omega

/-- A conversion of an integer emits its output. -/
theorem emits_int {spec : IntSpec} {a : Arg m} {v : ℤ} (hv : spec.value a = some v)
    (f : List Char) (ap : List (Arg m)) :
    Emits cap (.int spec) f (a :: ap) ap P ((spec.output v).map fun c => (c, false)) := by
  obtain ⟨front, digits, hdigits, hout, hconv⟩ := conversion_outAt cap P hv f ap
  rw [hout]
  refine emits_of_writeAll front (p := decimalValue spec.width ≤ INT_MAX)
    (fun hnil => absurd hnil hdigits) (fun hlen => ?_) fun fuel => ?_
  · have := length_output spec v
    rw [hout] at this
    exact Nat.le_pred_of_lt (this.trans_lt hlen)
  · have hne : spec.text ++ f ≠ [] := by simp [IntSpec.text]
    rw [Item.text, List.cons_append, formatLoop_conversion hne (head_text spec f), hconv]
    split_ifs
    · rw [Option.bind_map]
      rfl
    · rfl

/-! ## Formats -/

/-- A format is written item by item. -/
theorem formatText_cons (item : Item) (items : List Item) :
    formatText (item :: items) = item.text ++ formatText items := List.flatMap_cons

variable {items : List Item} {ap : List (Arg m)} {O : List (Char × Bool)}

/-- Two outputs fit if the first does and the second does after it. -/
theorem fits_append (T R : List (Char × Bool)) :
    Fits cap P (T ++ R) ↔ Fits cap P T ∧ Fits cap (P ++ T.map Prod.fst) R := by
  have hlen : cap - (P ++ T.map Prod.fst).length = cap - P.length - T.length := by
    rw [List.length_append, List.length_map]
    omega
  rw [Fits, Fits, Fits, List.drop_append, hlen]
  exact List.forall_mem_append

/-- The first item of a format, and the rest. -/
theorem exists_emits {item : Item} (h : fullOutput (item :: items) ap = some O) :
    ∃ T R ap', O = T ++ R ∧ fullOutput items ap' = some R ∧
      ∀ P, Emits cap item (formatText items) ap ap' P T := by
  cases item with
  | char c hc =>
      obtain ⟨R, hR, rfl⟩ := Option.map_eq_some_iff.mp h
      exact ⟨[(c, false)], R, ap, rfl, hR, fun P => emits_char hc _ _⟩
  | percent =>
      obtain ⟨R, hR, rfl⟩ := Option.map_eq_some_iff.mp h
      exact ⟨[('%', true)], R, ap, rfl, hR, fun P => emits_percent _ _⟩
  | str =>
      rcases ap with _ | ⟨_ | _ | _ | _ | t, ap⟩ <;> try cases h
      obtain ⟨R, hR, rfl⟩ := Option.map_eq_some_iff.mp h
      exact ⟨_, R, ap, rfl, hR, fun P => emits_str t _ _⟩
  | int spec =>
      rcases ap with _ | ⟨a, ap⟩
      · cases h
      · obtain ⟨v, hv, h⟩ := Option.bind_eq_some_iff.mp h
        obtain ⟨R, hR, h⟩ := Option.bind_eq_some_iff.mp h
        obtain rfl := Option.some_inj.mp h
        exact ⟨_, R, ap, rfl, hR, fun P => emits_int hv _ _⟩

theorem fullOutput_nil (h : fullOutput [] ap = some O) : O = [] := (Option.some_inj.mp h).symm

/-- **The format is put out** where all of it fits. -/
theorem formatLoop_runs (h : fullOutput items ap = some O) (hlen : O.length < 2 ^ 31)
    (hfits : Fits cap P O) : ∃ N, ∀ fuel ≥ N,
      formatLoop cap fuel (formatText items) ap (outAt m cap P) =
        some (outAt m cap (P ++ O.map Prod.fst)) := by
  induction items generalizing ap O P with
  | nil =>
      obtain rfl := fullOutput_nil h
      refine ⟨1, fun fuel hfuel => ?_⟩
      obtain ⟨fuel, rfl⟩ := Nat.exists_eq_succ_of_ne_zero (by omega : fuel ≠ 0)
      rw [List.map_nil, List.append_nil]
      exact formatLoop_nil ap
  | cons item items ih =>
      obtain ⟨T, R, ap', rfl, hR, hemits⟩ := exists_emits h
      obtain ⟨hT, hfitsR⟩ := (fits_append T R).mp hfits
      rw [List.length_append] at hlen
      obtain ⟨N, hN⟩ := ih hR (by omega) hfitsR
      refine ⟨max (T.length + 2) (N + 1), fun fuel hfuel => ?_⟩
      obtain ⟨fuel, rfl⟩ : ∃ k, fuel = k + 1 := ⟨fuel - 1, by omega⟩
      rw [formatText_cons, (hemits P).runs (by omega) hT fuel (by omega), List.map_append,
        ← List.append_assoc]
      exact hN fuel (by omega)

/-- **The function only ends** where all of it fits. -/
theorem formatLoop_returns (h : fullOutput items ap = some O)
    (hr : formatLoop cap fuel (formatText items) ap (outAt m cap P) = some o) :
    Fits cap P O ∧ o = outAt m cap (P ++ O.map Prod.fst) := by
  induction items generalizing ap O P fuel with
  | nil =>
      obtain rfl := fullOutput_nil h
      refine ⟨fun p hp => absurd (List.mem_of_mem_drop hp) List.not_mem_nil, ?_⟩
      cases fuel with
      | zero => cases hr
      | succ fuel =>
          rw [List.map_nil, List.append_nil]
          exact (Option.some_inj.mp hr).symm
  | cons item items ih =>
      obtain ⟨T, R, ap', rfl, hR, hemits⟩ := exists_emits h
      rw [formatText_cons] at hr
      obtain ⟨hT, fuel', hrest⟩ := (hemits P).returns fuel o hr
      obtain ⟨hfitsR, rfl⟩ := ih hR hrest
      rw [fits_append, List.map_append, ← List.append_assoc]
      exact ⟨⟨hT, hfitsR⟩, rfl⟩

/-- The capacity of the buffer. -/
theorem cap_eq (n : BitVec m.bits) : (if 0 < n then (n - 1).toNat else 0) = n.toNat - 1 := by
  have h1 : (1 : BitVec m.bits).toNat = 1 := by cases m <;> rfl
  split_ifs with h
  · have hpos : 0 < n.toNat := by simpa [BitVec.lt_def] using h
    rw [BitVec.toNat_sub_of_le (by rw [BitVec.le_def, h1]; exact hpos), h1]
  · have h0 : n.toNat = 0 := by simpa [BitVec.lt_def] using h
    rw [h0]

/-- Nothing has been put yet. -/
theorem outAt_nil (m : DataModel) (cap : ℕ) :
    outAt m cap [] = { pos := 0, needed := 0, writes := [] } := by
  simp [outAt]

/-- What `vsnprintf` makes of the output. -/
theorem vsnprintf_eq (fuel : ℕ) (n : BitVec m.bits) (fmt : List Char) (ap : List (Arg m)) :
    vsnprintf fuel n fmt ap =
      (formatLoop (n.toNat - 1) fuel fmt ap (outAt m (n.toNat - 1) [])).map fun o =>
        ((BitVec.ofNat 32 o.needed).toInt,
          if 0 < n then o.writes ++ [('\x00', o.pos)] else o.writes) := by
  rw [vsnprintf, outAt_nil, ← cap_eq]
  exact Option.map_eq_bind.symm

/-- The terminating null is written where there is room for it. -/
theorem writes_outAt (n : BitVec m.bits) (P : List Char) :
    (if 0 < n then (outAt m (n.toNat - 1) P).writes ++ [('\x00', (outAt m (n.toNat - 1) P).pos)]
      else (outAt m (n.toNat - 1) P).writes) =
      if n = 0 then [] else stringWrites (P.take (n.toNat - 1)) := by
  have h0 : n = 0 ↔ n.toNat = 0 := by rw [← BitVec.toNat_inj]; rfl
  by_cases hn : n = 0
  · subst hn
    rw [if_neg (by rw [BitVec.lt_def]; exact lt_irrefl _), if_pos rfl]
    rfl
  · have hpos : 0 < n := by
      rw [BitVec.lt_def]
      exact Nat.pos_of_ne_zero (mt h0.mpr hn)
    rw [if_pos hpos, if_neg hn, stringWrites, List.length_take, min_comm]
    rfl

/-- The result is an `int`. -/
theorem result_eq_iff (m : DataModel) (L : ℕ) :
    (BitVec.ofNat 32 (L % 2 ^ m.bits)).toInt = L ↔ L < 2 ^ 31 := by
  constructor
  · intro h
    have := BitVec.toInt_lt (x := BitVec.ofNat 32 (L % 2 ^ m.bits))
    rw [h] at this
    exact_mod_cast this
  · intro h
    have hbits : 2 ^ 31 ≤ 2 ^ m.bits :=
      Nat.pow_le_pow_right (by decide) ((by decide : 31 ≤ 32).trans (bits_le m).1)
    have hL : (BitVec.ofNat 32 (L % 2 ^ m.bits)).toNat = L := by
      rw [Nat.mod_eq_of_lt (h.trans_le hbits), BitVec.toNat_ofNat]
      exact Nat.mod_eq_of_lt (h.trans (by decide))
    rw [BitVec.toInt_eq_toNat_of_lt (by rw [hL]; omega), hL]

/-- What is written stays in the buffer. -/
theorem lt_of_mem_stringWrites {n : ℕ} (h : s.length < n) {p : Char × ℕ}
    (hp : p ∈ stringWrites s) : p.2 < n := by
  rcases List.mem_append.mp hp with hp | hp
  · have := List.snd_lt_of_mem_zipIdx hp
    omega
  · rw [List.mem_singleton.mp hp]
    exact h

/-- **When `vsnprintf` truncates the output of C99.**  Its length has to be an `int`, and what
does not fit into the buffer has to be the characters of `%%`. -/
theorem truncates_iff (n : BitVec m.bits) (items : List Item) (ap : List (Arg m))
    (O : List (Char × Bool)) (h : fullOutput items ap = some O) :
    Truncates n (formatText items) ap (O.map Prod.fst) ↔
      O.length < 2 ^ 31 ∧ ∀ p ∈ O.drop (n.toNat - 1), p.2 = true := by
  constructor
  · rintro ⟨fuel, writes, hr, -, -⟩
    rw [vsnprintf_eq] at hr
    obtain ⟨o, hloop, heq⟩ := Option.map_eq_some_iff.mp hr
    obtain ⟨hfits, rfl⟩ := formatLoop_returns h hloop
    have hlen := (Prod.mk.inj heq).1
    rw [List.nil_append] at hlen
    refine ⟨?_, hfits⟩
    rw [← O.length_map (f := Prod.fst)]
    exact (result_eq_iff m _).mp hlen
  · rintro ⟨hlen, hfits⟩
    have hfits' : Fits (n.toNat - 1) [] O := hfits
    obtain ⟨N, hN⟩ := formatLoop_runs h hlen hfits'
    refine ⟨N, _, ?_, rfl, ?_⟩
    · rw [vsnprintf_eq, hN N le_rfl, Option.map_some, List.nil_append, writes_outAt]
      have hresult := (result_eq_iff m (O.map Prod.fst).length).mpr (by rwa [List.length_map])
      exact congrArg (fun r => some (r, _)) hresult
    · intro p hp
      split_ifs at hp with hn
      · cases hp
      · have hpos : n.toNat ≠ 0 := by
          intro h0
          exact hn (BitVec.eq_of_toNat_eq h0)
        refine lt_of_mem_stringWrites ?_ hp
        rw [List.length_take]
        omega

/-- `%05d` -/
def fiveZeros : IntSpec where
  zero := true
  width := ['5']
  length := .none
  conversion := .d
  isDigit_width := List.forall_mem_singleton.mpr rfl
  head_width := by decide

/-- The output of `%05d%%` for -7. -/
def minusSeven : List (Char × Bool) :=
  [('-', false), ('0', false), ('0', false), ('0', false), ('7', false), ('%', true)]

/-- `"%05d%%"` with -7, into six bytes. -/
theorem truncates_minusSeven : Truncates (m := .ILP32) 6
    (formatText [.int fiveZeros, .percent]) [.int (-7)] (minusSeven.map Prod.fst) :=
  (truncates_iff 6 [.int fiveZeros, .percent] [.int (-7)] minusSeven (by decide)).mpr
    ⟨by decide, by decide⟩

/-- A character that does not fit: the loop does not end. -/
theorem oneChar_not_truncated : ¬ ∀ (m : DataModel) (n : BitVec m.bits) (items : List Item)
    (ap : List (Arg m)) (O : List (Char × Bool)), fullOutput items ap = some O →
    Truncates n (formatText items) ap (O.map Prod.fst) := by
  intro h
  have hchar : 'a' ≠ '%' ∧ 'a' ≠ '\x00' := by decide
  obtain ⟨fuel, writes, hr, -, -⟩ := h .ILP32 1 [.char 'a' hchar] [] [('a', false)] rfl
  have hloop : formatLoop (m := .ILP32) 0 fuel ['a'] [] (outAt .ILP32 0 []) = none :=
    formatLoop_full hchar.1 (Nat.zero_le _) [] []
  rw [vsnprintf_eq, show formatText [.char 'a' hchar] = ['a'] from rfl] at hr
  rw [show (1 : BitVec DataModel.ILP32.bits).toNat - 1 = 0 from rfl, hloop] at hr
  cases hr

end Klib

end Bailuwan
