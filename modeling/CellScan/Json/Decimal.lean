/-
`Json/Decimal.lean` -- the numbers of JSON, as written and as read.

A whole number in range is read exactly. Any other number is read as a double, in
one pass over its digits: the digits before the point, and then those after it, are
kept as long as the number that they spell stays below `2 ^ 64`; that number is
rounded to a double and then multiplied by the power of ten that is left, or divided
by the opposite power, itself rounded to a double. Near the largest double this is
not the same as rounding once, so whether a number is too large is decided here by
the same steps. A division is never too large, nor is nothing at all.
-/
import CellScan.Json
import CellScan.Rounding

set_option autoImplicit false

namespace CellScan.Json

open CellScan.Rounding

/-! ## As written -/

/-- A decimal number by its parts: sign, digits before and after the point, the
exponent's sign and digits. -/
structure Decimal where
  negative : Bool
  whole : List Char
  fraction : Option (List Char)
  exponent : Option (Bool × List Char)

/-- The digits at the front, at least one of them, and the rest. -/
def digits1? (cs : List Char) : Option (List Char × List Char) :=
  match cs.takeWhile Char.isDigit with
  | [] => none
  | ds => some (ds, cs.dropWhile Char.isDigit)

/-- The digits before the point and the rest. A leading zero stands alone. -/
def wholePart? (cs : List Char) : Option (List Char × List Char) :=
  match cs with
  | '0' :: rest => some (['0'], rest)
  | _ => digits1? cs

/-- The digits after the point, if there is one, and the rest. -/
def fractionPart? (cs : List Char) : Option (Option (List Char) × List Char) :=
  match cs with
  | '.' :: rest => (digits1? rest).map fun (ds, left) => (some ds, left)
  | _ => some (none, cs)

/-- The sign and digits of the exponent, if there is one, and the rest. -/
def exponentPart? (cs : List Char) : Option (Option (Bool × List Char) × List Char) :=
  match cs with
  | e :: rest =>
      if e == 'e' || e == 'E' then
        match rest with
        | '-' :: more => (digits1? more).map fun (ds, left) => (some (true, ds), left)
        | '+' :: more => (digits1? more).map fun (ds, left) => (some (false, ds), left)
        | _ => (digits1? rest).map fun (ds, left) => (some (false, ds), left)
      else some (none, cs)
  | [] => some (none, [])

/-- The decimal number at the front and the rest. -/
def decimal? (cs : List Char) : Option (Decimal × List Char) := do
  let (negative, body) := match cs with
    | '-' :: rest => (true, rest)
    | _ => (false, cs)
  let (whole, afterWhole) ← wholePart? body
  let (fraction, afterFraction) ← fractionPart? afterWhole
  let (exponent, left) ← exponentPart? afterFraction
  pure (⟨negative, whole, fraction, exponent⟩, left)

/-! ## As read -/

/-- The value of a decimal digit. -/
def digitValue (d : Char) : Nat := d.toNat - 48

/-- The value of decimal digits. -/
def digitsValue (ds : List Char) : Nat := ds.foldl (fun n d => n * 10 + digitValue d) 0

/-- The number that digits after those of `kept` spell, and how many of them do,
up to the first that would take the number to `2 ^ 64`. -/
def keepDigits (kept : Nat) : List Char → Nat × Nat
  | [] => (kept, 0)
  | d :: ds =>
      if kept * 10 + digitValue d < UInt64.size then
        let (value, count) := keepDigits (kept * 10 + digitValue d) ds
        (value, count + 1)
      else (kept, 0)

/-- The power of ten that the exponent names. -/
def Decimal.power (d : Decimal) : Int :=
  match d.exponent with
  | none => 0
  | some (true, ds) => -(digitsValue ds : Int)
  | some (false, ds) => digitsValue ds

/-- The digits kept as one number and the power of ten left to apply: one more for
each digit dropped before the point, one less for each kept after it. -/
def Decimal.scaled (d : Decimal) : Nat × Int :=
  let places := d.fraction.getD []
  let (front, before) := keepDigits 0 d.whole
  let (value, after) := keepDigits front places
  (value, d.power + (d.whole.length - before : Nat) - after)

/-- The largest power of ten that is applied at once. -/
def greatestPower : Nat := 308

/-- Whether the double read is finite. -/
def Decimal.isFinite (d : Decimal) : Bool :=
  let (value, power) := d.scaled
  if value = 0 ∨ power < 0 then true
  else if greatestPower < power then false
  else toDouble value * toDouble (Nat.pow 10 power.toNat) < infiniteFrom

/-- The number that a decimal stands for. Minus zero is not a whole number. -/
def Decimal.number (d : Decimal) : Number :=
  let n := digitsValue d.whole
  match d.fraction, d.exponent with
  | none, none =>
      if d.negative then
        if n ≠ 0 ∧ Int64.minValue.toInt ≤ -(n : Int) then .whole (-(n : Int)) else .other d.isFinite
      else if n < UInt64.size then .whole n
      else .other d.isFinite
  | _, _ => .other d.isFinite

end CellScan.Json
