/-
`FamilyFilter.lean` -- which column families a reader asks for.
-/
import CellScan.Bytes

set_option autoImplicit false

namespace CellScan

/-- The column families listed, or all but those listed. An empty list asks for
all of them either way. -/
structure FamilyFilter where
  families : List Bytes
  inclusive : Bool
deriving DecidableEq

namespace FamilyFilter

/-- Every family. -/
def all : FamilyFilter := ⟨[], false⟩

/-- One family alone. -/
def only (family : Bytes) : FamilyFilter := ⟨[family], true⟩

/-- Whether every family is asked for. -/
def isUnrestricted (f : FamilyFilter) : Bool := f.families.isEmpty

/-- Whether a family is asked for. -/
def accepts (f : FamilyFilter) (family : Bytes) : Bool :=
  f.isUnrestricted || f.families.contains family == f.inclusive

@[simp] theorem accepts_only (asked family : Bytes) :
    (only asked).accepts family = decide (family = asked) := by
  simp [only, accepts, isUnrestricted]

end FamilyFilter

end CellScan
