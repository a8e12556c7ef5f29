/-
`Rounding.lean` -- whole numbers rounded to nearest.

`nearest` rounds a quotient to a whole number and `toDouble` rounds a whole number
to 53 binary digits, which is the double nearest to it as long as that is finite. A
tie goes to the even neighbour in both. The second is the first one at the scale of
the digits that are given up, so the bounds of `nearest` are all there is to show.
-/
set_option autoImplicit false

namespace CellScan.Rounding

/-- The whole number nearest to a quotient, the even one of two. -/
def nearest (num den : Nat) : Nat :=
  let low := num / den
  let rest := num % den
  if 2 * rest < den then low
  else if den < 2 * rest then low + 1
  else if low % 2 = 0 then low else low + 1

/-- The nearest whole number is at most half away. -/
theorem nearest_bounds (num den : Nat) (h : 0 < den) :
    2 * num ≤ 2 * (nearest num den * den) + den ∧ 2 * (nearest num den * den) ≤ 2 * num + den := by
  have split := Nat.div_add_mod num den
  have rest := Nat.mod_lt num h
  have comm : den * (num / den) = num / den * den := Nat.mul_comm _ _
  have step : (num / den + 1) * den = num / den * den + den := Nat.succ_mul _ _
  unfold nearest
  simp only
  split
  · omega
  · split
    · rw [step]
      omega
    · split
      · omega
      · rw [step]
        omega

/-! ## Doubles -/

/-- The last binary places of a number that 53 binary digits cannot hold. -/
def excess (n : Nat) : Nat := n.log2 - 52

/-- The double nearest to a whole number. -/
def toDouble (n : Nat) : Nat := nearest n (1 <<< excess n) <<< excess n

/-- Half a step past the largest double: a product from here on is infinite. -/
def infiniteFrom : Nat := 1 <<< 1024 - 1 <<< 970

end CellScan.Rounding
