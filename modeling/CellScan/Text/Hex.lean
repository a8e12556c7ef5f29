/-
`Text/Hex.lean` -- numbers in base sixteen, lower case.

Two forms are used by the texts of this library: a byte as exactly two digits,
and a code point in as few digits as it needs.
-/
set_option autoImplicit false

namespace CellScan.Text.Hex

/-- The lower case digit of a value below sixteen. -/
def digit (n : Nat) : Char :=
  if n < 10 then Char.ofNat (48 + n) else Char.ofNat (87 + n)

/-- A byte in two digits. -/
def byte (b : UInt8) : String :=
  String.ofList [digit (b.toNat / 16), digit (b.toNat % 16)]

/-- A number in as many digits as it needs, one for zero. -/
def number (n : Nat) : String := String.ofList (Nat.toDigits 16 n)

/-- The low `digits` digits of a number, most significant first. -/
def padded (digits n : Nat) : String :=
  String.ofList ((List.range digits).reverse.map fun i => digit (n >>> (4 * i) % 16))

/-- The value of a digit of either case. -/
def value? (c : Char) : Option Nat :=
  if '0' ≤ c ∧ c ≤ '9' then some (c.toNat - 48)
  else if 'a' ≤ c ∧ c ≤ 'f' then some (c.toNat - 87)
  else if 'A' ≤ c ∧ c ≤ 'F' then some (c.toNat - 55)
  else none

end CellScan.Text.Hex
