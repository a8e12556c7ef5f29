/-
`Spec/Scan.lean` -- whole scans as JSON.

A scan is described by who reads and by what stands upon the sources: a merge, a
filter and, if asked for, an intersection. Every field has a default, so the empty
record describes a scan too. `build` puts the stack together. A scan always judges
visibility: a visibility predicate that is listed keeps its place, otherwise one
comes first.
-/
import CellScan.Json.Reader
import CellScan.Json.Writer
import CellScan.Spec.Intersection
import CellScan.Stack

set_option autoImplicit false

namespace CellScan

/-- What a scan is made from. -/
structure ScanSpec where
  authorizations : Authorizations
  defaultVisibility : Option String
  cacheCapacity : UInt64
  dedupe : Bool
  filters : List PredicateSpec
  intersection : Option IntersectionSpec
deriving DecidableEq

namespace ScanSpec

/-- The scan of the empty record. -/
def standard : ScanSpec :=
  ⟨Authorizations.empty, none, .ofNat Environment.standardCacheCapacity, false, [], none⟩

/-! ## Building -/

/-- The environment that the scan describes, on an account. -/
def environment (spec : ScanSpec) (account : Account) : Environment :=
  ⟨spec.authorizations, (spec.defaultVisibility.map Bytes.ofString).getD [], Evaluator.formula,
    account, spec.cacheCapacity.toNat⟩

/-- The sources in key order. A source alone is taken as it is, unless repeats are
to be passed over. -/
def merged {σ : Type} [Cursor σ] (spec : ScanSpec) (sources : List σ) (env : Environment) :
    Layer σ :=
  match sources, spec.dedupe with
  | [source], false => .bare source
  | _, _ => .merge (Merge.ofChildren sources spec.dedupe (some env.account))

/-- The predicates in order, one that judges visibility among them. -/
def predicates (spec : ScanSpec) (env : Environment) : Except Fault (List Predicate) := do
  let listed ← spec.filters.mapM (·.build env)
  if spec.filters.any PredicateSpec.isVisibility then pure listed
  else pure (.visibility (Visibility.ofEnvironment env) :: listed)

/-- The intersection upon a stack, if one is asked for. -/
def intersected {σ : Type} [Cursor σ] (spec : ScanSpec) (source : σ) (env : Environment) :
    Except Fault (Layer σ) :=
  match spec.intersection with
  | none => .ok (.bare source)
  | some i => (i.build source env).map .intersection

/-- The line logged for a stack. -/
def builtLine (spec : ScanSpec) (predicates : Nat) : String :=
  "built scan stack: dedupe=" ++ toString spec.dedupe ++ " predicates=" ++ toString predicates
    ++ " intersect=" ++ toString spec.intersection.isSome

/-- The stack of three layers that the scan describes. -/
def stackOf {σ : Type} [Cursor σ] (spec : ScanSpec) (sources : List σ) (env : Environment) :
    Except Fault (Nat × Stack σ 3) := do
  let predicates ← spec.predicates env
  let filter := Filter.ofPredicates (spec.merged sources env) predicates env
  let stack ← spec.intersected (Layer.filter filter) env
  pure (predicates.length, stack)

/-- The stack that the scan describes, and what building it recorded. -/
def build {σ : Type} [Cursor σ] (spec : ScanSpec) (sources : List σ) (env : Environment) :
    Except Fault (Stack σ 3) × List Event :=
  match spec.stackOf sources env with
  | .error fault => (.error fault, [])
  | .ok (count, stack) => (.ok stack, [.log .debug (spec.builtLine count)])

/-! ## JSON -/

/-- The names of the fields. -/
def fieldNames : List String :=
  ["authorizations", "default_visibility", "visibility_cache_capacity", "dedupe", "filters",
   "intersect"]

/-- A scan as JSON. -/
def toJson (spec : ScanSpec) : Json :=
  Json.ofMembers
    [("authorizations", .list (spec.authorizations.texts.map Json.ofString)),
     ("default_visibility", (spec.defaultVisibility.map Json.ofString).getD .null),
     ("visibility_cache_capacity", Json.ofInt spec.cacheCapacity.toNat),
     ("dedupe", .bool spec.dedupe),
     ("filters", .list (spec.filters.map PredicateSpec.toJson)),
     ("intersect", (spec.intersection.map IntersectionSpec.toJson).getD .null)]

/-- A scan from JSON. -/
def ofJson? (v : Json) : Option ScanSpec := do
  let fs ← v.fields? fieldNames
  let tokens ← fs.value? "authorizations" [] (Json.list? Json.asText?)
  let defaultVisibility ← fs.value? "default_visibility" none (Json.nullable? Json.asText?)
  let capacity ← fs.value? "visibility_cache_capacity" standard.cacheCapacity Json.size?
  let dedupe ← fs.value? "dedupe" false Json.flag?
  let filters ← fs.value? "filters" [] (Json.list? (PredicateSpec.ofJson? 2))
  let intersection ← fs.value? "intersect" none (Json.nullable? (IntersectionSpec.ofJson? 1))
  pure ⟨Authorizations.ofTexts tokens, defaultVisibility, capacity, dedupe, filters, intersection⟩

/-- A scan as a JSON text. -/
def toText (spec : ScanSpec) : String := spec.toJson.pretty

/-- A scan from a JSON text. -/
def ofText (text : String) : Except Fault ScanSpec :=
  match (Json.parse? text).bind ofJson? with
  | some spec => .ok spec
  | none => .error .json

end ScanSpec

end CellScan
