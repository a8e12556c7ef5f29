/-
`Intersection.lean` -- the documents that a query asks for, one after the other.

Every term has a probe of its own, and the probes of the terms asked for take
turns: each is brought to its first posting at or after the target, and if that is
farther on it becomes the target. Once all of them agree on a document, the terms
ruled out are asked about it, and a document that one of them has is passed over.
What is left is a hit. The intersection then stands at the document's cell, or at
a made-up cell of that key without a value where the source has none.

The families asked for have no say here, and the range is kept by rows, which is less
than is asked of a cursor: a hit may be any document of a row that starts before the
range ends, from the range's target on.

The loops are given as many turns as there are different situations to be in, so
to use them up is to go in circles.
-/
import CellScan.Probe

set_option autoImplicit false

namespace CellScan

/-- Probes for the terms of a query and a cursor for the documents, all of them
copies of one source. -/
structure Intersection (σ : Type) where
  query : Query
  source : σ
  positives : List (Probe σ)
  negatives : List (Probe σ)
  documents : σ
  range : Range
  /-- The hit the intersection stands at. -/
  hit : Option Document
  /-- The entry that shows the hit. -/
  shown : Option Entry
  account : Account

namespace Intersection

variable {σ : Type} [Cursor σ]

/-! ## Building -/

/-- Unplaced probes for some terms. -/
def probesFor (env : Environment) (source : σ) (terms : List Bytes) :
    Except Fault (List (Probe σ)) :=
  terms.mapM fun term => (Cursor.copy env source).map fun cursor => ⟨term, cursor, false⟩

/-- The intersection for a query over copies of a source. -/
def ofQuery (source : σ) (query : Query) (env : Environment) : Except Fault (Intersection σ) := do
  let positives ← probesFor env source query.positives
  let negatives ← probesFor env source query.negatives
  let documents ← Cursor.copy env source
  pure ⟨query, source, positives, negatives, documents, Range.all, none, none, env.account⟩

/-- The intersection for terms in a layout over copies of a source. -/
def ofTerms (source : σ) (layout : Layout) (terms : List Bytes) (flags : List Bool)
    (env : Environment) : Except Fault (Intersection σ) := do
  ofQuery source (← Query.ofTerms layout terms flags) env

/-- The intersection that options describe, and the warnings about them. -/
def ofOptions (source : σ) (kind : Layout.Kind) (o : Options) (env : Environment) :
    Except Fault (Intersection σ) × List Event :=
  ((Query.ofOptions kind o).bind fun query => ofQuery source query env,
    o.warnings "IntersectingIterator" (Query.optionNames kind))

/-- The intersection for the same query over copies of a copy of the source. -/
def copyFor (env : Environment) (x : Intersection σ) : Except Fault (Intersection σ) := do
  ofQuery (← Cursor.copy env x.source) x.query env

/-! ## How long a search can take -/

/-- No more than this many seeks bring a probe to its posting. -/
def seeks (x : Intersection σ) : Nat := Cursor.reach x.source + 2

/-- How many ways there are for the probes to stand: each at an entry, at none, or
not yet placed. -/
def placings (x : Intersection σ) : Nat :=
  Nat.pow (Cursor.reach x.source + 2) (x.positives.length + x.negatives.length)

/-- How many documents the postings of the terms can name. -/
def candidates (x : Intersection σ) : Nat :=
  (x.positives.length + x.negatives.length) * Cursor.reach x.source

/-- How many situations a search can be in: a target at or right after a candidate
or the first one, how many probes agree, whose turn it is, and how the probes
stand. -/
def situations (x : Intersection σ) : Nat :=
  (2 * x.candidates + 1) * ((x.positives.length + 1) * (x.positives.length + 1)) * x.placings + 1

/-! ## Searching -/

/-- What the probes have in common. -/
def search (x : Intersection σ) : Probe.Search := ⟨x.query.layout, x.range, x.account⟩

/-- Brings one of the probes asked for to a target. -/
def alignPositive (turn : Nat) (target : Target) : Action (Intersection σ) (Option Document) :=
  fun x =>
    Action.on positives (fun x ps => { x with positives := ps })
      (Action.onItem turn none (Probe.align x.search target x.seeks)) x

/-- Brings the probes asked for to a target in turns until `agreed` is all of them:
the document they agree on, or none if one is at its end. -/
def agree : Nat → Nat → Nat → Target → Action (Intersection σ) (Option Document)
  | 0, _, _, _ => Action.fail .endless
  | fuel + 1, agreed, turn, target => fun x =>
      if agreed = x.positives.length then Action.give target.document? x
      else
        (do
          match ← alignPositive turn target with
          | none => pure none
          | some document =>
              agree fuel (if target.document? = some document then agreed + 1 else 1)
                ((turn + 1) % x.positives.length) (Target.ofDocument document)) x

/-- Whether one of the terms ruled out has a document. -/
def isRuledOut (document : Document) : Action (Intersection σ) Bool := fun x =>
  Action.on negatives (fun x ps => { x with negatives := ps })
    (Action.anyItem do
      let found ← Probe.align x.search (Target.ofDocument document) x.seeks
      pure (found == some document)) x

/-- The first document at or after a target that the query asks for. -/
def nextHit : Nat → Target → Action (Intersection σ) (Option Document)
  | 0, _ => Action.fail .endless
  | fuel + 1, target => fun x =>
      (do
        match ← agree x.situations 0 0 target with
        | none => pure none
        | some document =>
            if ← isRuledOut document then nextHit fuel (Target.afterDocument document)
            else pure (some document)) x

/-- Fetches the entry that shows a document, and whether it comes from the source. -/
def fetch (document : Document) : Action (Intersection σ) (Entry × Bool) := do
  let layout ← Action.look fun x => x.query.layout
  let key := layout.documentKey document.row document.id
  Action.on documents (fun x c => { x with documents := c })
    (Cursor.seek (Range.ofColumn key.row key.family key.qualifier) (FamilyFilter.only key.family))
  match ← Action.look fun x => Cursor.top x.documents with
  | some entry => pure (entry, true)
  | none => pure ((key, []), false)

/-- Stands at a hit, and counts it. -/
def stand (document : Document) : Action (Intersection σ) Unit := do
  let (entry, fetched) ← fetch document
  let account ← Action.look Intersection.account
  Action.record [.count account (.hit fetched)]
  Action.change fun x => { x with hit := some document, shown := some entry }

/-- Goes to the first hit at or after a target, or to none. -/
def goTo (target : Target) : Action (Intersection σ) Unit := do
  Action.change fun x => { x with hit := none, shown := none }
  let situations ← Action.look situations
  match ← nextHit situations target with
  | none => pure ()
  | some document => stand document

/-! ## As a cursor -/

/-- Forgets where the probes stand. -/
def unplaced (ps : List (Probe σ)) : List (Probe σ) := ps.map fun p => { p with placed := false }

/-- Goes to the first hit of a range. -/
def place (range : Range) : Action (Intersection σ) Unit := do
  let account ← Action.look Intersection.account
  Action.record [.count account .seek]
  Action.change fun x =>
    { x with range, hit := none, shown := none, positives := unplaced x.positives,
             negatives := unplaced x.negatives }
  let layout ← Action.look fun x => x.query.layout
  if range.isEmpty then pure () else goTo (Target.ofRange layout range)

/-- Goes from the hit to the one after it. -/
def step : Action (Intersection σ) Unit := fun x =>
  match x.hit with
  | none => Action.fail .nothingToLeave x
  | some document => goTo (Target.afterDocument document) { x with hit := none }

/-- The identity of the document that a cell is or is a posting for. -/
def docId? (x : Intersection σ) (k : Key) : Option Bytes := x.query.layout.docId? k

instance : Cursor (Intersection σ) where
  seek range _ := place range
  top := shown
  next := step
  copy := copyFor
  reach x := (x.candidates + 1) * x.placings

end Intersection

end CellScan
