/-
`Predicate.lean` -- the conditions a cell has to meet to pass a filter.

There is a closed set of kinds and one for conditions brought from outside. Only
a visibility filter changes as it is asked, by what it remembers, so asking a
predicate gives back the predicate to ask next. `holds` is the bare decision.
A chain asks its predicates in order and stops at the first that says no.
-/
import CellScan.FamilyFilter
import CellScan.Visibility

set_option autoImplicit false

namespace CellScan

/-- An entry: a key and its value. -/
abbrev Entry : Type := Key × Bytes

/-- A condition on entries. -/
inductive Predicate where
  /-- The cell's label is satisfied. -/
  | visibility (filter : Visibility)
  /-- The cell has a label. -/
  | labelled
  /-- The key lies in one of the ranges. -/
  | ranges (spans : List Range)
  /-- The cell is at most `ttl` old at time `now`. -/
  | ageOff (ttl now : Int64)
  /-- The cell's family is asked for. -/
  | families (filter : FamilyFilter)
  /-- A condition from outside, by its name. -/
  | custom (name : String) (keep : Entry → Bool)

namespace Predicate

/-- The name of a predicate. -/
def name : Predicate → String
  | .visibility _ => "visibility"
  | .labelled => "novis"
  | .ranges _ => "ranges"
  | .ageOff _ _ => "ageoff"
  | .families _ => "columnfamilies"
  | .custom name _ => name

/-- The age of a timestamp, held within the bounds of 64 bits. -/
def age (now timestamp : Int64) : Int :=
  max Int64.minValue.toInt (min Int64.maxValue.toInt (now.toInt - timestamp.toInt))

/-- Whether an entry meets the condition. -/
def holds (p : Predicate) (e : Entry) : Bool :=
  match p with
  | .visibility filter => filter.judge e.1
  | .labelled => !e.1.visibility.isEmpty
  | .ranges spans => spans.any (·.contains e.1)
  | .ageOff ttl now => age now e.1.timestamp ≤ ttl.toInt
  | .families filter => filter.accepts e.1.family
  | .custom _ keep => keep e

/-- The decision on an entry, the predicate to ask next, and what was recorded. -/
def accept (p : Predicate) (e : Entry) : Bool × Predicate × List Event :=
  match p with
  | .visibility filter =>
      let (accepted, filter, events) := filter.accept e.1
      (accepted, .visibility filter, events)
  | _ => (p.holds e, p, [])

/-- A predicate for an independent reader: it remembers nothing yet. -/
def copy (p : Predicate) (env : Environment) : Predicate :=
  match p with
  | .visibility filter => .visibility (filter.copy env)
  | _ => p

/-- The decision of a chain on an entry. -/
def acceptAll (ps : List Predicate) (e : Entry) : Bool × List Predicate × List Event :=
  match ps with
  | [] => (true, [], [])
  | p :: rest =>
      match p.accept e with
      | (false, p, events) => (false, p :: rest, events)
      | (true, p, events) =>
          let (accepted, rest, more) := acceptAll rest e
          (accepted, p :: rest, events ++ more)

end Predicate

end CellScan
