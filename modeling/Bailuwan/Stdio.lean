/-
# Formatted output (`klib/src/stdio.c`)

`vsnprintf` with its macro `WRITE_CHAR` and its helper `print_integer`.  A string is the list
of its characters before the terminating zero, the buffer is the sequence of the writes to it.
The results are `none` where the fuel of a loop runs out and where C does not define an
operation.

The macro does not evaluate its argument where the buffer is full.  The loops whose
progress is in that argument (`*f++`, `*s++`, `buf[--bi]`) are modelled like this: they go on
without an end then.
-/
import Mathlib.Data.Nat.Digits.Defs

namespace Bailuwan

namespace Klib

/-- The sizes of `size_t` and `long` that klib is built for. -/
inductive DataModel
  | ILP32
  | LP64
  deriving DecidableEq, Repr

/-- The width of `long`. -/
def DataModel.bits : DataModel → ℕ
  | .ILP32 => 32
  | .LP64 => 64

/-- Strings do not contain the terminating zero. -/
abbrev CString := {s : List Char // '\x00' ∉ s}

/-- An argument as it is passed, of a signed or an unsigned type. -/
inductive Arg (m : DataModel)
  | int (v : BitVec 32)
  | long (v : BitVec m.bits)
  | longLong (v : BitVec 64)
  | str (s : Option CString)
  deriving DecidableEq

/-- `length`: 0=none, 1=l, 2=ll -/
inductive Length
  | none
  | l
  | ll
  deriving DecidableEq, Repr

/-- The counters `pos` and `needed`, and the writes to `out` so far. -/
structure Out where
  pos : ℕ
  needed : ℕ
  writes : List (Char × ℕ)
  deriving DecidableEq, Repr

variable (m : DataModel) (cap : ℕ)

/-! ## WRITE_CHAR -/

/-- `needed++` -/
def Out.skip (o : Out) : Out := { o with needed := (o.needed + 1) % 2 ^ m.bits }

/-- `out[pos++] = c; needed++` -/
def Out.put (o : Out) (c : Char) : Out where
  pos := o.pos + 1
  needed := (o.needed + 1) % 2 ^ m.bits
  writes := o.writes ++ [(c, o.pos)]

/-- `WRITE_CHAR(c)` of a character that is evaluated without effect. -/
def writeChar (c : Char) (o : Out) : Out := if o.pos < cap then o.put m c else o.skip m

/-- `while (*s) WRITE_CHAR(*s++)`, and `while (bi > 0) WRITE_CHAR(buf[--bi])` of the
characters from `buf[bi - 1]` down to `buf[0]`. -/
def writeAll : ℕ → List Char → Out → Option Out
  | 0, _, _ => none
  | _ + 1, [], o => some o
  | fuel + 1, c :: s, o =>
      if o.pos < cap then writeAll fuel s (o.put m c) else writeAll fuel (c :: s) (o.skip m)

/-- `while (pad-- > 0) WRITE_CHAR(c)` -/
def writePad (c : Char) : ℕ → Out → Out
  | 0, o => o
  | pad + 1, o => writePad c pad (writeChar m cap c o)

/-! ## print_integer -/

/-- A digit in base 10. -/
def decDigit (absVal : BitVec 64) : Char := Char.ofNat ('0'.toNat + (absVal % 10).toNat)

/-- A digit in base 16, in the case of the conversion. -/
def hexDigit (fmt : Char) (absVal : BitVec 64) : Char :=
  let digit := (absVal &&& 0xF).toNat
  if digit < 10 then Char.ofNat ('0'.toNat + digit)
  else Char.ofNat ((if fmt = 'X' then 'A' else 'a').toNat + (digit - 10))

/-- `while (abs_val > 0 && bi < (int)sizeof(buf))`, the last digit first; `room` is what
`buf` has left, and its head is `buf[bi - 1]`. -/
def digitLoop (digit : BitVec 64 → Char) (rest : BitVec 64 → BitVec 64) :
    ℕ → BitVec 64 → List Char → List Char
  | 0, _, buf => buf
  | room + 1, absVal, buf =>
      if 0 < absVal then digitLoop digit rest room (rest absVal) (digit absVal :: buf) else buf

/-- The digits in `buf`; `halt(1)` for another specifier. -/
def digitBuf (fmt : Char) (absVal : BitVec 64) : Option (List Char) :=
  if absVal = 0 then some ['0']
  else if fmt = 'x' ∨ fmt = 'X' then
    some (digitLoop (hexDigit fmt) (fun v => v >>> 4) 128 absVal [])
  else if fmt = 'd' ∨ fmt = 'u' then some (digitLoop decDigit (fun v => v / 10) 128 absVal [])
  else none

/-- `print_integer` -/
def printInteger (fuel : ℕ) (negative : Bool) (absVal : BitVec 64) (zeroPad : Bool) (width : ℕ)
    (fmt : Char) (o : Out) : Option Out := do
  let buf ← digitBuf fmt absVal
  let digitsLen : ℤ := buf.length
  if negative then
    if zeroPad ∧ width > 0 then
      let o := writeChar m cap '-' o
      writeAll m cap fuel buf (writePad m cap '0' ((width : ℤ) - 1 - digitsLen).toNat o)
    else
      let o := writePad m cap ' ' ((width : ℤ) - 1 - digitsLen).toNat o
      writeAll m cap fuel buf (writeChar m cap '-' o)
  else
    writeAll m cap fuel buf
      (writePad m cap (if zeroPad then '0' else ' ') ((width : ℤ) - digitsLen).toNat o)

/-! ## vsnprintf -/

/-- `INT_MAX` -/
def INT_MAX : ℕ := 2 ^ 31 - 1

/-- `isdigit` -/
def isDigit (c : Char) : Bool := '0' ≤ c && c ≤ '9'

/-- The width: `none` where the arithmetic on `int` overflows. -/
def parseWidth : List Char → ℕ → Option (ℕ × List Char)
  | [], width => some (width, [])
  | c :: f, width =>
      if isDigit c then
        let width := width * 10 + (c.toNat - '0'.toNat)
        if width ≤ INT_MAX then parseWidth f width else none
      else some (width, c :: f)

/-- The length modifier. -/
def parseLength : List Char → Length × List Char
  | 'l' :: f =>
      match f with
      | 'l' :: f => (.ll, f)
      | f => (.l, f)
  | f => (.none, f)

variable {m}

/-- `va_arg` of a signed type, as a `long long`. -/
def Arg.signed : Length → Arg m → Option (BitVec 64)
  | .none, .int v => some (v.signExtend 64)
  | .l, .long v => some (v.signExtend 64)
  | .ll, .longLong v => some v
  | _, _ => none

/-- `va_arg` of an unsigned type, as an `unsigned long long`. -/
def Arg.unsigned : Length → Arg m → Option (BitVec 64)
  | .none, .int v => some (v.setWidth 64)
  | .l, .long v => some (v.setWidth 64)
  | .ll, .longLong v => some v
  | _, _ => none

/-- The absolute value, for the smallest number without an overflow. -/
def absVal (llv : BitVec 64) : BitVec 64 := if llv.slt 0 then -(llv + 1) + 1 else llv

/-- What remains of the format and of the arguments, and the output. -/
abbrev Rest (m : DataModel) := List Char × List (Arg m) × Out

/-- The specifier of a conversion, behind its width. -/
def specifier (fuel : ℕ) (zeroPad : Bool) (width : ℕ) (f : List Char) (ap : List (Arg m))
    (o : Out) : Option (Rest m) :=
  match f with
  | [] => some ([], ap, o)
  | c :: f' =>
      if c = 's' then
        match ap with
        | .str s :: ap => do
            let s := s.elim "(null)".toList Subtype.val
            let o ← writeAll m cap fuel s o
            some (f', ap, o)
        | _ => none
      else
        let (length, f) := parseLength (c :: f')
        match f with
        | [] => some ([], ap, writeChar m cap '\x00' (writeChar m cap '%' o))
        | c :: f =>
            if c = 'd' then
              match ap with
              | a :: ap => do
                  let llv ← a.signed length
                  let o ← printInteger m cap fuel (llv.slt 0) (absVal llv) zeroPad width c o
                  some (f, ap, o)
              | [] => none
            else if c = 'u' ∨ c = 'x' ∨ c = 'X' then
              match ap with
              | a :: ap => do
                  let uv ← a.unsigned length
                  let o ← printInteger m cap fuel false uv zeroPad width c o
                  some (f, ap, o)
              | [] => none
            else some (f, ap, writeChar m cap c (writeChar m cap '%' o))

/-- What follows a `%` that is neither the last character nor doubled. -/
def conversion (fuel : ℕ) (f : List Char) (ap : List (Arg m)) (o : Out) : Option (Rest m) := do
  let zeroPad := f.head? = some '0'
  let (width, f) ← parseWidth (if zeroPad then f.tail else f) 0
  specifier cap fuel zeroPad width f ap o

/-- `while (*f)` -/
def formatLoop : ℕ → List Char → List (Arg m) → Out → Option Out
  | 0, _, _, _ => none
  | _ + 1, [], _, o => some o
  | fuel + 1, c :: f, ap, o =>
      if c ≠ '%' then
        -- the format advances with the character that is written
        if o.pos < cap then formatLoop fuel f ap (o.put m c)
        else formatLoop fuel (c :: f) ap (o.skip m)
      else
        match f with
        | [] => some o
        | '%' :: f => formatLoop fuel f ap (writeChar m cap '%' o)
        | f => do
            let (f, ap, o) ← conversion cap fuel f ap o
            formatLoop fuel f ap o

/-- `vsnprintf`: the result, and the writes to `out` in their order. -/
def vsnprintf (fuel : ℕ) (n : BitVec m.bits) (fmt : List Char) (ap : List (Arg m)) :
    Option (ℤ × List (Char × ℕ)) := do
  let cap := if 0 < n then (n - 1).toNat else 0
  let o ← formatLoop cap fuel fmt ap { pos := 0, needed := 0, writes := [] }
  let writes := if 0 < n then o.writes ++ [('\x00', o.pos)] else o.writes
  some ((BitVec.ofNat 32 o.needed).toInt, writes)

/-- `sprintf` and `vsprintf`: a buffer of size `SIZE_MAX`. -/
def sprintf (fuel : ℕ) (fmt : List Char) (ap : List (Arg m)) : Option (ℤ × List (Char × ℕ)) :=
  vsnprintf fuel (BitVec.allOnes m.bits) fmt ap

end Klib

end Bailuwan
