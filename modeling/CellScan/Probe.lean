/-
`Probe.lean` -- the cursor that goes through the postings of one term.

`align` brings a probe to its first posting at or after a target. A probe that
already stands there stays. Otherwise it seeks the least key such a posting can
have, and again as long as the cursor stops at something else: at a posting of a
document before the target it seeks past that document, at a cell that is no
posting of the term it seeks where the postings begin, in that row or the next.

Each seek starts after the key that the last one stopped at, as long as the source
keeps to the range sought, so a sorted source is passed through once. `align` is
told how many seeks may be needed; to need more, the source has to be out of order.
-/
import CellScan.Cursor
import CellScan.Query

set_option autoImplicit false

namespace CellScan

/-- A cursor for the postings of a term. It is `placed` if it has been sought since
the intersection was. -/
structure Probe (σ : Type) where
  term : Bytes
  cursor : σ
  placed : Bool

namespace Probe

/-- What the probes of one search have in common. -/
structure Search where
  layout : Layout
  range : Range
  account : Account

variable {σ : Type} [Cursor σ]

/-- Where the probe stands, if that will do for the target. -/
def standing? (s : Search) (target : Target) (p : Probe σ) : Option Document := do
  let k ← if p.placed then Cursor.topKey p.cursor else none
  let id ← s.layout.postingDoc? p.term k
  if target.admits ⟨k.row, id⟩ && !s.range.isAfterRow k.row then some ⟨k.row, id⟩ else none

/-- What a seek has found. -/
inductive Finding where
  /-- A posting at or after the target. -/
  | posting (document : Document)
  /-- Nothing, and nothing to come. -/
  | nothing
  /-- Something else; look on from a key. -/
  | lookOn (start : Key)

/-- Judges the key that a seek stopped at. -/
def judge (s : Search) (target : Target) (term : Bytes) : Option Key → Finding
  | none => .nothing
  | some k =>
      if s.range.isAfterRow k.row then .nothing
      else
        match s.layout.postingDoc? term k with
        | some id =>
            if k.row = target.row ∧ ¬ target.admits ⟨k.row, id⟩ then
              .lookOn (s.layout.postingKeyAfter target.row term id)
            else .posting ⟨k.row, id⟩
        | none =>
            let first := s.layout.postingKey k.row term none
            if k < first then .lookOn first
            else .lookOn (s.layout.postingKey k.row.successor term none)

/-- Seeks a key in the term's family. -/
def seekTo (s : Search) (start : Key) : Action (Probe σ) Unit := do
  Action.record [.count s.account .termSeek]
  let term ← Action.look Probe.term
  Action.on cursor (fun p c => { p with cursor := c })
    (Cursor.seek (Range.startingAt start) (FamilyFilter.only (s.layout.postingFamily term)))
  Action.change fun p => { p with placed := true }

/-- Seeks from key to key until the search is decided. -/
def look (s : Search) (target : Target) : Nat → Key → Action (Probe σ) (Option Document)
  | 0, _ => Action.fail .endless
  | fuel + 1, start => do
      seekTo s start
      match ← Action.look fun p => judge s target p.term (Cursor.topKey p.cursor) with
      | .posting document => pure (some document)
      | .nothing => pure none
      | .lookOn start => look s target fuel start

/-- Brings the probe to its first posting at or after the target, and says where
that is; `none` if there is none in the rows of the range. -/
def align (s : Search) (target : Target) (fuel : Nat) : Action (Probe σ) (Option Document) :=
  fun p =>
    match p.standing? s target with
    | some document => Action.give (some document) p
    | none => look s target fuel (s.layout.postingKey target.row p.term target.id) p

end Probe

end CellScan
