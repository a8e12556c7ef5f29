/-
`Spec/Predicate.lean` -- predicates as JSON.

A predicate is written as a record whose field `kind` names it. `toJson` and
`ofJson?` write and read it, `build` makes the predicate in an environment. A
visibility predicate without a default label takes the environment's.
-/
import CellScan.Json.Decode
import CellScan.Json.Reader
import CellScan.Predicate

set_option autoImplicit false

namespace CellScan

/-- What a built-in predicate is made from. -/
inductive PredicateSpec where
  | visibility (defaultVisibility : Option String)
  | labelled
  | ranges (rows : List RowInterval)
  | ageOff (ttl now : Int64)
  | families (names : List String) (inclusive : Bool)
deriving DecidableEq

namespace RowInterval

/-- Row ends as JSON. -/
def toJson (rows : RowInterval) : Json :=
  Json.ofMembers
    [("start", (rows.start.map Json.ofString).getD .null),
     ("end", (rows.stop.map Json.ofString).getD .null)]

/-- Row ends from JSON. A missing end is unbounded, like null. -/
def ofJson? (v : Json) : Option RowInterval := do
  let fs ← v.fields? ["start", "end"]
  let start ← fs.value? "start" none (Json.nullable? Json.asText?)
  let stop ← fs.value? "end" none (Json.nullable? Json.asText?)
  pure ⟨start, stop⟩

end RowInterval

namespace PredicateSpec

/-- Whether this is a visibility predicate. -/
def isVisibility : PredicateSpec → Bool
  | .visibility _ => true
  | _ => false

/-- The predicate in an environment. -/
def build (env : Environment) : PredicateSpec → Except Fault Predicate
  | .visibility none => .ok (.visibility (Visibility.ofEnvironment env))
  | .visibility (some label) => .ok (.visibility (Visibility.withDefault env (Bytes.ofString label)))
  | .labelled => .ok .labelled
  | .ranges rows => (rows.mapM fun r => Fault.ofEnds r.range?).map .ranges
  | .ageOff ttl now => .ok (.ageOff ttl now)
  | .families names inclusive => .ok (.families ⟨names.map Bytes.ofString, inclusive⟩)

/-! ## JSON -/

/-- A predicate as JSON. -/
def toJson : PredicateSpec → Json
  | .visibility defaultVisibility =>
      Json.ofMembers
        [("kind", Json.ofString "visibility"),
         ("default_visibility", (defaultVisibility.map Json.ofString).getD .null)]
  | .labelled => Json.ofMembers [("kind", Json.ofString "no_visibility")]
  | .ranges rows =>
      Json.ofMembers
        [("kind", Json.ofString "ranges"), ("rows", .list (rows.map RowInterval.toJson))]
  | .ageOff ttl now =>
      Json.ofMembers
        [("kind", Json.ofString "age_off"), ("ttl", Json.ofInt ttl.toInt),
         ("now", Json.ofInt now.toInt)]
  | .families names inclusive =>
      Json.ofMembers
        [("kind", Json.ofString "column_families"),
         ("families", .list (names.map Json.ofString)), ("inclusive", .bool inclusive)]

/-- The fields of a predicate of a kind. -/
def ofKind? (kind : String) (v : Json) : Option PredicateSpec :=
  match kind with
  | "visibility" => do
      let fs ← v.fields? ["default_visibility"]
      let label ← fs.value? "default_visibility" none (Json.nullable? Json.asText?)
      pure (.visibility label)
  | "no_visibility" => (v.fields? []).map fun _ => .labelled
  | "ranges" => do
      let fs ← v.fields? ["rows"]
      let rows ← fs.required? "rows" (Json.list? RowInterval.ofJson?)
      pure (.ranges rows)
  | "age_off" => do
      let fs ← v.fields? ["ttl", "now"]
      let ttl ← fs.required? "ttl" Json.int64?
      let now ← fs.required? "now" Json.int64?
      pure (.ageOff ttl now)
  | "column_families" => do
      let fs ← v.fields? ["families", "inclusive"]
      let names ← fs.required? "families" (Json.list? Json.asText?)
      let inclusive ← fs.value? "inclusive" true Json.flag?
      pure (.families names inclusive)
  | _ => none

/-- A predicate from JSON, with `levels` lists and records open around it. -/
def ofJson? (levels : Nat) (v : Json) : Option PredicateSpec :=
  match v.tagged? "kind" levels with
  | some (kind, rest) => ofKind? kind rest
  | none => none

/-- A list of predicates from a JSON text. -/
def listOfText? (text : String) : Option (List PredicateSpec) :=
  (Json.parse? text).bind (Json.list? (ofJson? 1))

end PredicateSpec

end CellScan
