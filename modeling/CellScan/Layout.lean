/-
`Layout.lean` -- where an index keeps its postings and its documents.

A *posting* is a cell that says: in this row, this document has this term. A
*document cell* holds the document itself. There are two layouts, with `·` for a
zero byte:

    term families    posting   family: the term        qualifier: document
                     document  family: documents       qualifier: document
    index family     posting   family: index           qualifier: term · document · anything
                     document  family: documents       qualifier: document
                     document  family: documents · kind   qualifier: name

where in the second layout an identity `kind · name` is kept by its kind. There an
identity is made of a fixed number of segments; one that ends early reaches to the
end of its qualifier.

A search needs to know three things of a layout: the least key that a posting can
have (`postingKey`), the least key after all postings of one document
(`postingKeyAfter`), and the document a cell is a posting of (`postingDoc?`).
-/
import CellScan.FamilyFilter
import CellScan.Key
import CellScan.Options
import CellScan.Text.Decimal

set_option autoImplicit false

namespace CellScan

open CellScan.Text

/-- An arrangement of postings and documents in a row. -/
inductive Layout where
  /-- Each term has a column family for its postings. -/
  | termFamily (documents : Bytes)
  /-- All postings are in one column family, and a document's identity has the
  given number of segments. -/
  | indexFamily (index documents : Bytes) (segments : Nat) (positive : 0 < segments)
deriving DecidableEq

namespace Layout

/-- Which of the two layouts. -/
inductive Kind where
  | termFamily
  | indexFamily
deriving DecidableEq

/-- The kind of a layout. -/
def kind : Layout → Kind
  | .termFamily _ => .termFamily
  | .indexFamily _ _ _ _ => .indexFamily

/-! ## Building layouts -/

/-- The text of the documents' family where none is named. -/
def standardDocuments : String := "e"

/-- The text of the index family where none is named. -/
def standardIndex : String := "i"

/-- An index family layout; identities have one segment at least. -/
def ofSegments (index documents : Bytes) (segments : Nat) : Layout :=
  .indexFamily index documents (max segments 1) (by omega)

/-- A layout with all at its standard. -/
def standard : Kind → Layout
  | .termFamily => .termFamily (Bytes.ofString standardDocuments)
  | .indexFamily => ofSegments (Bytes.ofString standardIndex) (Bytes.ofString standardDocuments) 1

/-- The option for the documents' family. -/
def documentsOption : String := "docFamily"

/-- The option for the index family. -/
def indexOption : String := "indexFamily"

/-- The option for the number of segments of an identity. -/
def segmentsOption : String := "docIdSegments"

/-- The options that a kind of layout knows. -/
def Kind.optionNames : Kind → List String
  | .termFamily => [documentsOption]
  | .indexFamily => [indexOption, documentsOption, segmentsOption]

/-- The family that an option names, or the standard one. -/
def familyOption (o : Options) (name standard : String) : Bytes :=
  Bytes.ofString ((o.get? name).getD standard)

/-- The number of segments in the options, one where it is not given. -/
def segmentCount (o : Options) : Except Fault { n : Nat // 0 < n } :=
  match o.get? segmentsOption with
  | none => .ok ⟨1, by decide⟩
  | some text =>
      match Decimal.size? text with
      | some n => if h : 0 < n then .ok ⟨n, h⟩ else .error (.segmentsOption text)
      | none => .error (.segmentsOption text)

/-- The layout that options describe. -/
def ofOptions (kind : Kind) (o : Options) : Except Fault Layout :=
  let documents := familyOption o documentsOption standardDocuments
  match kind with
  | .termFamily => .ok (.termFamily documents)
  | .indexFamily =>
      (segmentCount o).map fun n =>
        .indexFamily (familyOption o indexOption standardIndex) documents n.1 n.2

/-! ## Postings -/

/-- The column family that holds a term's postings. -/
def postingFamily (l : Layout) (term : Bytes) : Bytes :=
  match l with
  | .termFamily _ => term
  | .indexFamily index _ _ _ => index

/-- What a posting's qualifier begins with. -/
def postingStart (l : Layout) (term : Bytes) : Bytes :=
  match l with
  | .termFamily _ => []
  | .indexFamily _ _ _ _ => term ++ [0]

/-- The least live key that a posting in `row` can have, of any document or of one
from `doc` on. -/
def postingKey (l : Layout) (row term : Bytes) (doc : Option Bytes) : Key :=
  Key.ofColumn row (l.postingFamily term) (l.postingStart term ++ doc.getD [])

/-- What ends an identity so that all its postings lie before. An identity with
fewer segments than there should be may be the beginning of others, and then only
its own posting may be passed over. -/
def identityEnd (l : Layout) (doc : Bytes) : Bytes :=
  match l with
  | .termFamily _ => [0]
  | .indexFamily _ _ segments _ => if segments ≤ doc.count 0 + 1 then [1] else [0]

/-- The least live key after every posting in `row` for `doc`. -/
def postingKeyAfter (l : Layout) (row term doc : Bytes) : Key :=
  Key.ofColumn row (l.postingFamily term) (l.postingStart term ++ doc ++ l.identityEnd doc)

/-- The document that a cell is a posting of `term` for. -/
def postingDoc? (l : Layout) (term : Bytes) (k : Key) : Option Bytes :=
  if k.family = l.postingFamily term then
    match l with
    | .termFamily _ => some k.qualifier
    | .indexFamily _ _ segments _ =>
        (Bytes.after? (l.postingStart term) k.qualifier).map (Bytes.segments segments)
  else none

/-! ## Documents -/

/-- The key of a document's cell. -/
def documentKey (l : Layout) (row doc : Bytes) : Key :=
  match l with
  | .termFamily documents => Key.ofColumn row documents doc
  | .indexFamily _ documents _ _ =>
      match Bytes.cutAtZero? doc with
      | some (kind, name) => Key.ofColumn row (documents ++ 0 :: kind) name
      | none => Key.ofColumn row documents doc

/-- The identity of the document that a cell is, or that it is a posting for
whatever its term. -/
def docId? (l : Layout) (k : Key) : Option Bytes :=
  match l with
  | .termFamily documents => if k.family = documents then some k.qualifier else none
  | .indexFamily index documents segments _ =>
      if k.family = index then
        (Bytes.cutAtZero? k.qualifier).map fun (_, rest) => Bytes.segments segments rest
      else if k.family = documents then some k.qualifier
      else (Bytes.after? (documents ++ [0]) k.family).map fun kind => kind ++ 0 :: k.qualifier

end Layout

end CellScan
