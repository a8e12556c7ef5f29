/-
`RowInterval.lean` -- the rows between two named ends, as settings write them.
-/
import CellScan.Range
import CellScan.Text.Quoted

set_option autoImplicit false

namespace CellScan

open CellScan.Text

/-- The rows from `start` to `stop`, both included; a missing end is unbounded. -/
structure RowInterval where
  start : Option String
  stop : Option String
deriving DecidableEq

namespace RowInterval

/-- The range of the rows, or its two ends when they are the wrong way round. -/
def range? (rows : RowInterval) : Except (Key × Key) Range :=
  Range.ofRows? (rows.start.map Bytes.ofString) true (rows.stop.map Bytes.ofString) true

/-- An end shown as a value. -/
def literalEnd : Option String → String
  | none => "None"
  | some s => "Some(" ++ Quoted.encode s ++ ")"

/-- The interval shown as a value. -/
def literal (rows : RowInterval) : String :=
  "RowRange \x7b start: " ++ literalEnd rows.start ++ ", end: " ++ literalEnd rows.stop ++ " \x7d"

end RowInterval

end CellScan
