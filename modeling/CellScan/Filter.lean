/-
`Filter.lean` -- a cursor that passes over entries.

A filter stands where its source stands. After every move it goes on until a
chain of predicates accepts the source's top, or the source is at its end; each
decision is counted. Where a move fails the filter stays with the source wherever
that has got to, and a filter over a source that is already placed shows its top
unchecked until the first move.
-/
import CellScan.Cursor
import CellScan.Options
import CellScan.Spec.Predicate

set_option autoImplicit false

namespace CellScan

/-- A source and the predicates its entries have to meet. -/
structure Filter (σ : Type) where
  source : σ
  predicates : List Predicate
  account : Account

namespace Filter

variable {σ : Type} [Cursor σ]

/-- A filter by some predicates. -/
def ofPredicates (source : σ) (predicates : List Predicate) (env : Environment) : Filter σ :=
  ⟨source, predicates, env.account⟩

/-- A call on the source. -/
def onSource {α : Type} (x : Action σ α) : Action (Filter σ) α :=
  Action.on source (fun f s => { f with source := s }) x

/-- The decision of the chain on an entry, which is counted. -/
def decideOn (e : Entry) : Action (Filter σ) Bool := fun f =>
  let (accepted, predicates, events) := Predicate.acceptAll f.predicates e
  ⟨.ok accepted, { f with predicates }, events ++ [.count f.account (.decision accepted)]⟩

/-- Goes on to the first entry that the chain accepts. -/
def passRejected : Nat → Action (Filter σ) Unit
  | 0 => Action.fail .endless
  | fuel + 1 => fun f =>
      match Cursor.top f.source with
      | none => Action.give () f
      | some e =>
          (do
            if ← decideOn e then pure ()
            else
              onSource Cursor.next
              passRejected fuel) f

/-- Goes on as far as the source reaches. -/
def settle : Action (Filter σ) Unit := fun f => passRejected (Cursor.reach f.source + 1) f

/-- Places the source and goes on to the first entry accepted. -/
def place (range : Range) (families : FamilyFilter) : Action (Filter σ) Unit := do
  let account ← Action.look account
  Action.record [.count account .seek]
  onSource (Cursor.seek range families)
  settle

/-- Moves the source on and goes on to the next entry accepted. -/
def step : Action (Filter σ) Unit := do
  onSource Cursor.next
  settle

/-- A filter over a copy of the source, by predicates that remember nothing. -/
def copyFor (env : Environment) (f : Filter σ) : Except Fault (Filter σ) :=
  (Cursor.copy env f.source).map fun source =>
    ⟨source, f.predicates.map (·.copy env), env.account⟩

instance : Cursor (Filter σ) where
  seek := place
  top f := Cursor.top f.source
  next := step
  copy := copyFor
  reach f := Cursor.reach f.source

/-! ## From options -/

/-- The option that lists the predicates. -/
def filtersOption : String := "filters"

/-- A predicate of the option's list, with the cause of failure put in its place. -/
def predicateOf (env : Environment) (spec : PredicateSpec) : Except Fault Predicate :=
  match spec, spec.build env with
  | .ranges rows, .error cause => .error (.invalidRows rows cause)
  | _, built => built

/-- The predicates that options list. -/
def predicatesOf (o : Options) (env : Environment) : Except Fault (List Predicate) :=
  match o.get? filtersOption with
  | none => .ok []
  | some text =>
      match PredicateSpec.listOfText? text with
      | none => .error .json
      | some specs => specs.mapM (predicateOf env)

/-- The filter that options describe, and the warnings about them. -/
def ofOptions (source : σ) (o : Options) (env : Environment) :
    Except Fault (Filter σ) × List Event :=
  ((predicatesOf o env).map fun predicates => ofPredicates source predicates env,
    o.warnings "FilteringIterator" [filtersOption])

end Filter

end CellScan
