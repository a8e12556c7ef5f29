/-
`Text/Blank.lean` -- the white space of the Unicode standard, and trimming by it.

The property White_Space has twenty-five members in ten runs.
-/
set_option autoImplicit false

namespace CellScan.Text

/-- First and last code point of each run of white space. -/
def blankRuns : List (Nat × Nat) :=
  [(0x09, 0x0d), (0x20, 0x20), (0x85, 0x85), (0xa0, 0xa0), (0x1680, 0x1680), (0x2000, 0x200a),
   (0x2028, 0x2029), (0x202f, 0x202f), (0x205f, 0x205f), (0x3000, 0x3000)]

/-- Whether a character has the property White_Space. -/
def isBlank (c : Char) : Bool :=
  blankRuns.any fun run => run.1 ≤ c.toNat && c.toNat ≤ run.2

/-- Text without the white space at its two ends. -/
def trim (cs : List Char) : List Char :=
  ((cs.dropWhile isBlank).reverse.dropWhile isBlank).reverse

example : (blankRuns.map fun run => run.2 + 1 - run.1).sum = 25 := by decide

end CellScan.Text
