/-
`Scan.lean` -- reading all entries of a range.

`scan` places a cursor and lists the entries it leads past. `batch` does so for
several ranges, each with a copy of its own, so the ranges have nothing to do with
one another and the cursor itself does not move; the lists follow one another in
the order of the ranges.
-/
import CellScan.Cursor

set_option autoImplicit false

namespace CellScan.Scan

variable {σ : Type} [Cursor σ]

/-- The entries from the top on. -/
def collect : Nat → Action σ (List Entry)
  | 0 => Action.fail .endless
  | fuel + 1 => fun s =>
      match Cursor.top s with
      | none => Action.give [] s
      | some entry =>
          (do
            Cursor.next
            let rest ← collect fuel
            pure (entry :: rest)) s

/-- The entries of a range and of the families asked for. -/
def scan (range : Range) (families : FamilyFilter) : Action σ (List Entry) := do
  Cursor.seek range families
  fun s => collect (Cursor.reach s + 1) s

/-- The scans of copies, each of one range, in order. -/
def scanEach (families : FamilyFilter) : List (σ × Range) → Except Fault (List (List Entry)) × List Event
  | [] => (.ok [], [])
  | (copy, range) :: rest =>
      match scan range families copy with
      | ⟨.error fault, _, events⟩ => (.error fault, events)
      | ⟨.ok entries, _, events⟩ =>
          let (others, more) := scanEach families rest
          (others.map (entries :: ·), events ++ more)

/-- The line logged for a batch. -/
def batchLine (ranges entries : Nat) : String :=
  "batch scan of " ++ toString ranges ++ " ranges returned " ++ toString entries ++ " entries"

/-- The entries of several ranges, one range after the other. -/
def batch (env : Environment) (ranges : List Range) (families : FamilyFilter) (s : σ) :
    Except Fault (List Entry) × List Event :=
  match ranges.mapM fun range => (Cursor.copy env s).map (·, range) with
  | .error fault => (.error fault, [])
  | .ok copies =>
      match scanEach families copies with
      | (.error fault, events) => (.error fault, events)
      | (.ok lists, events) =>
          (.ok lists.flatten,
            events ++ [.log .debug (batchLine ranges.length lists.flatten.length)])

end CellScan.Scan
