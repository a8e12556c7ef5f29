/-
`Fault.lean` -- the causes of failure, and how each is reported.

A cause carries what it is about; `Fault.status` gives it a code and words.
Sources and evaluators that come from outside report in their own words, which
every stage passes on unchanged: that is the cause `reported`. A search that sources
out of order lead round in a circle never ends, so nothing is ever reported of it:
`endless` says so in its place, and has neither code nor words.
-/
import CellScan.Label.Fault
import CellScan.RowInterval
import CellScan.Status

set_option autoImplicit false

namespace CellScan

open CellScan.Text

/-- Why a call failed. -/
inductive Fault where
  /-- A range's ends are the wrong way round. -/
  | invertedRange (start stop : Key)
  /-- A byte string is no label. -/
  | label (fault : Label.Fault)
  /-- `next` was called where there is no entry to leave. -/
  | nothingToLeave
  /-- A source below a merge stepped back. -/
  | steppedBack (child : Nat) (before after : Key)
  /-- An intersection was given no term. -/
  | noTerms
  /-- An intersection was given flags, but not one for each term. -/
  | flagCount (flags terms : Nat)
  /-- An intersection was given negated terms only. -/
  | noPositiveTerm
  /-- An option that has to be there is not. -/
  | missingOption (name : String)
  /-- The option for the number of segments is no positive number. -/
  | segmentsOption (text : String)
  /-- The setting for the number of segments is zero. -/
  | noSegments
  /-- A flag is neither 0 nor 1. -/
  | flagByte (byte : UInt8)
  /-- A text is not in base 64. -/
  | base64
  /-- A text is not the JSON that is read here. -/
  | json
  /-- A row filter of a filter list cannot be built. -/
  | invalidRows (rows : List RowInterval) (cause : Fault)
  /-- A source or an evaluator failed, in its own words. -/
  | reported (status : Status)
  /-- Sources out of order lead a search round in a circle: it does not end. -/
  | endless
deriving DecidableEq

/-- How a call ends that does not succeed. -/
inductive Ending where
  /-- It fails, and the report of that has this code. -/
  | failure (code : Code)
  /-- It does not end. -/
  | never
deriving DecidableEq

/-- What such an end goes by in texts. -/
def Ending.name : Ending → String
  | .failure code => code.name
  | .never => "never"

namespace Fault

/-- The report of a cause: a code and words. There is none of a search that goes round in a
circle. -/
def status : Fault → Option Status
  | .invertedRange start stop =>
      some ⟨.invalidArgument, "range start key " ++ start.display ++ " sorts after end key "
        ++ stop.display⟩
  | .label fault => some ⟨.labelParse, fault.text⟩
  | .nothingToLeave => some ⟨.invalidArgument, "next() called without a top entry"⟩
  | .steppedBack child before after =>
      some ⟨.orderingViolation, "merge child " ++ toString child ++ " moved backwards from "
        ++ before.display ++ " to " ++ after.display⟩
  | .noTerms => some ⟨.configuration, "intersection needs at least one term"⟩
  | .flagCount flags terms =>
      some ⟨.configuration, toString flags ++ " negation flags for " ++ toString terms ++ " terms"⟩
  | .noPositiveTerm =>
      some ⟨.configuration, "intersection needs at least one non-negated term"⟩
  | .missingOption name => some ⟨.configuration, "missing required option " ++ name⟩
  | .segmentsOption text =>
      some ⟨.configuration, "docIdSegments must be a positive integer, got " ++ Quoted.encode text⟩
  | .noSegments => some ⟨.configuration, "doc_id_segments must be positive"⟩
  | .flagByte byte => some ⟨.configuration, "invalid boolean flag byte " ++ toString byte.toNat⟩
  | .base64 => some ⟨.configuration, "invalid base64 option"⟩
  | .json => some ⟨.configuration, "malformed JSON"⟩
  | .invalidRows rows cause =>
      cause.status.map fun status =>
        ⟨.configuration, "invalid filter setting Ranges \x7b rows: "
          ++ Quoted.list (rows.map RowInterval.literal) ++ " \x7d: " ++ status.display⟩
  | .reported status => some status
  | .endless => none

/-- How a call ends for a cause. -/
def code (f : Fault) : Ending := (f.status.map fun s => .failure s.code).getD .never

/-- The words for a cause, if there are any. -/
def message (f : Fault) : String := (f.status.map Status.message).getD ""

/-- A cause in running text. -/
def display (f : Fault) : String := (f.status.map Status.display).getD ""

/-- A range from keys, with the cause of failure. -/
def ofEnds {α : Type} : Except (Key × Key) α → Except Fault α
  | .ok a => .ok a
  | .error (start, stop) => .error (.invertedRange start stop)

end Fault

end CellScan
