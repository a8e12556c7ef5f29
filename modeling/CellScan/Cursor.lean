/-
`Cursor.lean` -- what every source and every stage can do.

A cursor stands at an entry, its *top*, or at none. `seek` places it at the first
entry of a range whose family is asked for; `next` leaves the top for the entry
after it; `copy` makes an unplaced cursor over the same entries that counts on the
account of another environment. A failed `seek` or `next` leaves the cursor
wherever it got to.

`reach` bounds the entries that can follow one seek. A loop that visits more than
that has come back to where it was: only sources out of order lead it there, and
it ends with `Fault.endless`.
-/
import CellScan.Action
import CellScan.Environment
import CellScan.Predicate

set_option autoImplicit false

namespace CellScan

/-- States that are cursors over entries. -/
class Cursor (σ : Type) where
  /-- Places the cursor at the first entry of a range and of the families asked for. -/
  seek : Range → FamilyFilter → Action σ Unit
  /-- The entry the cursor stands at. -/
  top : σ → Option Entry
  /-- Leaves the top for the next entry. -/
  next : Action σ Unit
  /-- An unplaced cursor over the same entries, for another environment. -/
  copy : Environment → σ → Except Fault σ
  /-- No more entries than this follow a seek. -/
  reach : σ → Nat

namespace Cursor

variable {σ : Type} [Cursor σ]

/-- The key the cursor stands at. -/
def topKey (s : σ) : Option Key := (top s).map Prod.fst

end Cursor

end CellScan
