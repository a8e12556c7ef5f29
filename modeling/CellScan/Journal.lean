/-
`Journal.lean` -- what stages record while they work, and where it is gathered.

A stage never reads what it records. Each call gives back the events of its
work, in order, beside its result: a tally for the account of the environment
that the stage was made in, or a line for the log. `Ledger` gathers events: one
set of counters per account, and the log lines not yet taken.
-/
import CellScan.SortedList
import CellScan.Statistics

set_option autoImplicit false

namespace CellScan

/-- Whose counters are meant. Stages made in one environment share its account. -/
abbrev Account : Type := Nat

/-- How serious a log line is. -/
inductive Level where
  | debug
  | warn
  | error
deriving DecidableEq

/-- The name of a level in a log. -/
def Level.name : Level → String
  | .debug => "DEBUG"
  | .warn => "WARN"
  | .error => "ERROR"

/-- One thing recorded. -/
inductive Event where
  | count (account : Account) (tally : Tally)
  | log (level : Level) (text : String)
deriving DecidableEq

/-- The tallies of one account among events. -/
def Event.talliesOf (account : Account) (events : List Event) : List Tally :=
  events.filterMap fun
    | .count a t => if a = account then some t else none
    | .log _ _ => none

/-- The log lines among events. -/
def Event.lines (events : List Event) : List (Level × String) :=
  events.filterMap fun
    | .log level text => some (level, text)
    | .count _ _ => none

/-- Counters by account and the log lines not yet taken. -/
structure Ledger where
  books : List (Account × Statistics)
  lines : List (Level × String)

namespace Ledger

/-- Nothing recorded. -/
def empty : Ledger := ⟨[], []⟩

/-- The counters of an account. -/
def statistics (l : Ledger) (account : Account) : Statistics :=
  ((l.books.find? (·.1 = account)).map Prod.snd).getD Statistics.zero

/-- Sets the counters of an account. -/
def setStatistics (l : Ledger) (account : Account) (s : Statistics) : Ledger :=
  { l with books := SortedList.insertBy Prod.fst (account, s) l.books }

/-- Enters one event. -/
def enter (l : Ledger) : Event → Ledger
  | .count account t => l.setStatistics account ((l.statistics account).tally t)
  | .log level text => { l with lines := l.lines ++ [(level, text)] }

/-- Enters events in order. -/
def enterAll (l : Ledger) (events : List Event) : Ledger := events.foldl enter l

/-- Sets the counters of an account to zero. -/
def reset (l : Ledger) (account : Account) : Ledger := l.setStatistics account Statistics.zero

/-- The log lines since they were last taken, and the ledger without them. -/
def takeLines (l : Ledger) : List (Level × String) × Ledger := (l.lines, { l with lines := [] })

end Ledger

end CellScan
