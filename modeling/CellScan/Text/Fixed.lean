/-
`Text/Fixed.lean` -- numbers with two decimal places.

A double is a whole number times a power of two, so the hundredths nearest to it
are found by one division of whole numbers. A tie goes to the even neighbour.
-/
import CellScan.Rounding

set_option autoImplicit false

namespace CellScan.Text.Fixed

open CellScan.Rounding

/-- The hundredths nearest to a positive finite double. -/
def hundredths (x : Float) : Nat :=
  let bits := x.toBits.toNat
  let exponent := bits >>> 52 % 1 <<< 11
  let fraction := bits % 1 <<< 52
  -- the double is `whole * 2 ^ (scale - 1074)`
  let whole := if exponent = 0 then fraction else fraction + 1 <<< 52
  let scale := exponent - 1
  nearest ((whole * 100) <<< scale) (1 <<< 1074)

/-- A positive finite double with two decimal places. -/
def twoPlaces (x : Float) : String :=
  let h := hundredths x
  toString (h / 100) ++ "." ++ toString (h / 10 % 10) ++ toString (h % 10)

end CellScan.Text.Fixed
