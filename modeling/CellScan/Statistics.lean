/-
`Statistics.lean` -- what a scan counts, and the report of it.

Ten counters of 64 bits, and one kind of record for each thing that is counted;
a record of a decision or of a cache look-up or of a hit says which way it went.
The counters are a fold over the records: `tallyAll`.
-/
import CellScan.Text.Fixed

set_option autoImplicit false

namespace CellScan

open CellScan.Text

/-- One thing that happened and is counted. -/
inductive Tally where
  | seek
  | termSeek
  | decision (accepted : Bool)
  | lookup (found : Bool)
  | parseError
  | hit (fetched : Bool)
  | violation
deriving DecidableEq

/-- The counters. -/
structure Statistics where
  seeks : UInt64
  termSeeks : UInt64
  accepted : UInt64
  rejected : UInt64
  cacheHits : UInt64
  cacheMisses : UInt64
  parseErrors : UInt64
  hits : UInt64
  documents : UInt64
  violations : UInt64
deriving DecidableEq

namespace Statistics

/-- Nothing counted yet. -/
def zero : Statistics := ⟨0, 0, 0, 0, 0, 0, 0, 0, 0, 0⟩

/-- Counts one thing. A hit whose document was fetched counts twice over: as a
hit and as a document. -/
def tally (s : Statistics) : Tally → Statistics
  | .seek => { s with seeks := s.seeks + 1 }
  | .termSeek => { s with termSeeks := s.termSeeks + 1 }
  | .decision true => { s with accepted := s.accepted + 1 }
  | .decision false => { s with rejected := s.rejected + 1 }
  | .lookup true => { s with cacheHits := s.cacheHits + 1 }
  | .lookup false => { s with cacheMisses := s.cacheMisses + 1 }
  | .parseError => { s with parseErrors := s.parseErrors + 1 }
  | .hit true => { s with hits := s.hits + 1, documents := s.documents + 1 }
  | .hit false => { s with hits := s.hits + 1 }
  | .violation => { s with violations := s.violations + 1 }

/-- Counts several things in order. -/
def tallyAll (s : Statistics) (ts : List Tally) : Statistics := ts.foldl tally s

@[simp] theorem tallyAll_nil (s : Statistics) : s.tallyAll [] = s := rfl

/-! ## Rates -/

/-- The share of a count in itself and another one, zero where there is nothing. -/
def share (part other : UInt64) : Float :=
  let total := part.toFloat + other.toFloat
  if total > 0 then part.toFloat / total else 0

/-- The share of cache look-ups that found a label. -/
def cacheHitRate (s : Statistics) : Float := share s.cacheHits s.cacheMisses

/-- The share of entries that passed their filter. -/
def selectivity (s : Statistics) : Float := share s.accepted s.rejected

/-! ## Report -/

/-- A line of the report: a name padded to its column, and a value. -/
def line (name value : String) : String :=
  "- " ++ name ++ ":" ++ "".pushn ' ' (14 - name.length) ++ value

/-- A rate as a percentage with two places. -/
def percent (rate : Float) : String := Fixed.twoPlaces (rate * 100) ++ "%"

/-- The counters and rates as a text of several sections. -/
def report (s : Statistics) : String :=
  "\n".intercalate
    ["Scan Statistics:",
     "",
     "Positioning:",
     line "Seeks" (toString s.seeks),
     line "Term seeks" (toString s.termSeeks),
     "",
     "Filtering:",
     line "Accepted" (toString s.accepted),
     line "Rejected" (toString s.rejected),
     line "Selectivity" (percent s.selectivity),
     "",
     "Visibility:",
     line "Cache hits" (toString s.cacheHits),
     line "Cache misses" (toString s.cacheMisses),
     line "Hit rate" (percent s.cacheHitRate),
     line "Parse errors" (toString s.parseErrors),
     "",
     "Intersection:",
     line "Hits" (toString s.hits),
     line "Docs fetched" (toString s.documents),
     "",
     "Ordering violations: " ++ toString s.violations]

end Statistics

end CellScan
