/-
`Options.lean` -- the named texts that a stage is configured by.

Options are kept in order of their names, so each name occurs once and what is
said about unknown names is said in that order.
-/
import CellScan.Fault
import CellScan.Journal

set_option autoImplicit false

namespace CellScan

/-- Texts by name. -/
structure Options where
  entries : List (String × String)
deriving DecidableEq

namespace Options

/-- The options of a list; of several texts for a name the last one counts. -/
def ofList (entries : List (String × String)) : Options :=
  ⟨SortedList.insertAllBy Prod.fst entries []⟩

/-- The text of an option, if it is given. -/
def get? (o : Options) (name : String) : Option String := o.entries.lookup name

/-- The text of an option that has to be given. -/
def required (o : Options) (name : String) : Except Fault String :=
  match o.get? name with
  | some text => .ok text
  | none => .error (.missingOption name)

/-- The warnings of a stage for the options that it does not know. -/
def warnings (o : Options) (stage : String) (known : List String) : List Event :=
  (o.entries.filter fun entry => !known.contains entry.1).map fun entry =>
    .log .warn (stage ++ ": ignoring unknown option " ++ entry.1)

end Options

end CellScan
