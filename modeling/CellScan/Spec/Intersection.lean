/-
`Spec/Intersection.lean` -- intersections as JSON.

An intersection is written as a record whose field `layout` says how postings are
laid out. Terms and families are texts here. `toJson` and `ofJson?` write and read
it, `build` makes the intersection over a source.
-/
import CellScan.Intersection
import CellScan.Json.Decode

set_option autoImplicit false

namespace CellScan

/-- What an intersection is made from. -/
inductive IntersectionSpec where
  | termFamily (terms : List String) (negated : List Bool) (documents : String)
  | indexFamily (terms : List String) (negated : List Bool) (index documents : String)
      (segments : UInt64)
deriving DecidableEq

namespace IntersectionSpec

/-- The layout it names. -/
def layout : IntersectionSpec → Except Fault Layout
  | .termFamily _ _ documents => .ok (.termFamily (Bytes.ofString documents))
  | .indexFamily _ _ index documents segments =>
      if segments = 0 then .error .noSegments
      else .ok (Layout.ofSegments (Bytes.ofString index) (Bytes.ofString documents) segments.toNat)

/-- The terms it names. -/
def terms : IntersectionSpec → List Bytes
  | .termFamily terms _ _ => terms.map Bytes.ofString
  | .indexFamily terms _ _ _ _ => terms.map Bytes.ofString

/-- The flags it gives. -/
def negated : IntersectionSpec → List Bool
  | .termFamily _ negated _ => negated
  | .indexFamily _ negated _ _ _ => negated

/-- The intersection over a source. -/
def build {σ : Type} [Cursor σ] (spec : IntersectionSpec) (source : σ) (env : Environment) :
    Except Fault (Intersection σ) := do
  Intersection.ofTerms source (← spec.layout) spec.terms spec.negated env

/-! ## JSON -/

/-- An intersection as JSON. -/
def toJson : IntersectionSpec → Json
  | .termFamily terms negated documents =>
      Json.ofMembers
        [("layout", Json.ofString "term_family"),
         ("terms", .list (terms.map Json.ofString)),
         ("negated", .list (negated.map Json.bool)),
         ("doc_family", Json.ofString documents)]
  | .indexFamily terms negated index documents segments =>
      Json.ofMembers
        [("layout", Json.ofString "index_family"),
         ("terms", .list (terms.map Json.ofString)),
         ("negated", .list (negated.map Json.bool)),
         ("index_family", Json.ofString index),
         ("doc_family", Json.ofString documents),
         ("doc_id_segments", Json.ofInt segments.toNat)]

/-- The fields of an intersection of a layout. -/
def ofLayout? (layout : String) (v : Json) : Option IntersectionSpec :=
  match layout with
  | "term_family" => do
      let fs ← v.fields? ["terms", "negated", "doc_family"]
      let terms ← fs.required? "terms" (Json.list? Json.asText?)
      let negated ← fs.value? "negated" [] (Json.list? Json.flag?)
      let documents ← fs.value? "doc_family" Layout.standardDocuments Json.asText?
      pure (.termFamily terms negated documents)
  | "index_family" => do
      let fs ← v.fields? ["terms", "negated", "index_family", "doc_family", "doc_id_segments"]
      let terms ← fs.required? "terms" (Json.list? Json.asText?)
      let negated ← fs.value? "negated" [] (Json.list? Json.flag?)
      let index ← fs.value? "index_family" Layout.standardIndex Json.asText?
      let documents ← fs.value? "doc_family" Layout.standardDocuments Json.asText?
      let segments ← fs.value? "doc_id_segments" 1 Json.size?
      pure (.indexFamily terms negated index documents segments)
  | _ => none

/-- An intersection from JSON, with `levels` lists and records open around it. -/
def ofJson? (levels : Nat) (v : Json) : Option IntersectionSpec :=
  match v.tagged? "layout" levels with
  | some (layout, rest) => ofLayout? layout rest
  | none => none

end IntersectionSpec

end CellScan
