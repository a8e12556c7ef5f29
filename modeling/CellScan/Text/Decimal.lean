/-
`Text/Decimal.lean` -- whole numbers in decimal digits.
-/
set_option autoImplicit false

namespace CellScan.Text.Decimal

/-- The value of a digit from 0 to 9. -/
def digit? (c : Char) : Option Nat :=
  if '0' ≤ c ∧ c ≤ '9' then some (c.toNat - '0'.toNat) else none

/-- The number that digits spell after digits of value `start`. -/
def continue? (start : Nat) : List Char → Option Nat
  | [] => some start
  | c :: cs =>
      match digit? c with
      | some d => continue? (10 * start + d) cs
      | none => none

/-- The number that digits spell; there must be one at least. -/
def number? (digits : List Char) : Option Nat :=
  if digits.isEmpty then none else continue? 0 digits

/-- The number of a text of digits with or without a plus sign, below `2 ^ 64`. -/
def size? (s : String) : Option Nat :=
  let digits := match s.toList with
    | '+' :: rest => rest
    | cs => cs
  (number? digits).filter (· < UInt64.size)

end CellScan.Text.Decimal
