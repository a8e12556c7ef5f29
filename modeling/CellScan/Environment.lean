/-
`Environment.lean` -- what a scan runs with: who reads, by which evaluator, and
on whose account.
-/
import CellScan.Fault
import CellScan.Journal
import CellScan.Label.Parser

set_option autoImplicit false

namespace CellScan

/-- Decides whether presented tokens satisfy a label written as bytes. The answer
depends on these two alone, so it can be remembered. -/
abbrev Evaluator : Type := Bytes → Authorizations → Except Fault Bool

/-- Reads the label and evaluates its formula. -/
def Evaluator.formula : Evaluator := fun label auths =>
  match Label.parse label with
  | .ok l => .ok (l.holds auths)
  | .error fault => .error (.label fault)

/-- The context that stages are made in. -/
structure Environment where
  authorizations : Authorizations
  /-- The label of cells that carry none. -/
  defaultVisibility : Bytes
  evaluator : Evaluator
  /-- Whose counters the stages count on. -/
  account : Account
  /-- How many labels a visibility filter remembers. -/
  cacheCapacity : Nat

namespace Environment

/-- The number of labels remembered where nothing else is said. -/
def standardCacheCapacity : Nat := 1000

/-- Nobody's environment: no tokens, no default label. -/
def ofAccount (account : Account) : Environment :=
  ⟨Authorizations.empty, [], Evaluator.formula, account, standardCacheCapacity⟩

end Environment

end CellScan
