/-
`Query.lean` -- which documents are asked for: those with some terms and without
others.

A query is about one row at a time: a document is known by its row and its
identity, and documents ascend by row and then by identity. A `Target` is the
point in that order from which documents are wanted.
-/
import CellScan.Layout
import CellScan.Range
import CellScan.TermList

set_option autoImplicit false

namespace CellScan

/-! ## Documents in order -/

/-- A document: its row and its identity in the row. -/
structure Document where
  row : Bytes
  id : Bytes
deriving DecidableEq

/-- Where to look from: a row and, if named, an identity in it. -/
structure Target where
  row : Bytes
  id : Option Bytes
deriving DecidableEq

namespace Target

/-- Whether a document lies at or after the target. -/
def admits (t : Target) (d : Document) : Bool :=
  match compare d.row t.row with
  | .gt => true
  | .lt => false
  | .eq => t.id.all fun id => (compare id d.id).isLE

/-- The document that the target names, if it names one. -/
def document? (t : Target) : Option Document := t.id.map fun id => ⟨t.row, id⟩

/-- From a document on. -/
def ofDocument (d : Document) : Target := ⟨d.row, some d.id⟩

/-- From right after a document on. -/
def afterDocument (d : Document) : Target := ⟨d.row, some d.id.successor⟩

/-- Where a range starts. A start key that names a document starts at it, or
behind it if the key is excluded; any other starts with its row. -/
def ofRange (layout : Layout) (range : Range) : Target :=
  match range.start with
  | none => ⟨[], none⟩
  | some k =>
      ⟨k.row, ((layout.docId? k).filter (!·.isEmpty)).map fun id =>
        if range.startInclusive then id else id.successor⟩

end Target

/-! ## Queries -/

/-- A term, asked for or ruled out. -/
structure Query.Term where
  term : Bytes
  negated : Bool
deriving DecidableEq

/-- Terms in a layout. One at least is asked for. -/
structure Query where
  layout : Layout
  terms : List Query.Term
  asks : ∃ t ∈ terms, t.negated = false
deriving DecidableEq

namespace Query

/-- Terms with their flags. Without any flags all of the terms are asked for. -/
def withFlags (terms : List Bytes) (flags : List Bool) : List Term :=
  if flags.isEmpty then terms.map fun t => ⟨t, false⟩ else terms.zipWith Term.mk flags

/-- The query for some terms, with a flag for each that says whether it is ruled
out, or with no flags at all. -/
def ofTerms (layout : Layout) (terms : List Bytes) (flags : List Bool) : Except Fault Query :=
  let all := withFlags terms flags
  if terms.isEmpty then .error .noTerms
  else if !flags.isEmpty && flags.length != terms.length then
    .error (.flagCount flags.length terms.length)
  else if h : ∃ t ∈ all, t.negated = false then .ok ⟨layout, all, h⟩
  else .error .noPositiveTerm

/-- The terms asked for. -/
def positives (q : Query) : List Bytes := (q.terms.filter (!·.negated)).map Term.term

/-- The terms ruled out. -/
def negatives (q : Query) : List Bytes := (q.terms.filter (·.negated)).map Term.term

/-! ## From options -/

/-- The option that lists the terms. -/
def termsOption : String := "columnFamilies"

/-- The option that lists the flags. -/
def flagsOption : String := "notFlag"

/-- The options a query over a kind of layout knows. -/
def optionNames (kind : Layout.Kind) : List String := termsOption :: flagsOption :: kind.optionNames

/-- The flags in options, none where they are not given. -/
def flagsOf (o : Options) : Except Fault (List Bool) :=
  match o.get? flagsOption with
  | none => .ok []
  | some text => TermList.decodeFlags text

/-- The query that options describe. -/
def ofOptions (kind : Layout.Kind) (o : Options) : Except Fault Query := do
  let terms ← TermList.decode (← o.required termsOption)
  let flags ← flagsOf o
  let layout ← Layout.ofOptions kind o
  ofTerms layout terms flags

end Query

end CellScan
