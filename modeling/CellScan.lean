import CellScan.Action
import CellScan.Authorizations
import CellScan.Base64
import CellScan.Bytes
import CellScan.Bytes.Display
import CellScan.Bytes.Utf8
import CellScan.Cache
import CellScan.Cursor
import CellScan.Environment
import CellScan.FamilyFilter
import CellScan.Fault
import CellScan.Filter
import CellScan.Intersection
import CellScan.Journal
import CellScan.Json
import CellScan.Json.Decimal
import CellScan.Json.Decode
import CellScan.Json.Reader
import CellScan.Json.Writer
import CellScan.Key
import CellScan.Label
import CellScan.Label.Fault
import CellScan.Label.Grammar
import CellScan.Label.Parser
import CellScan.Layout
import CellScan.Merge
import CellScan.Options
import CellScan.Predicate
import CellScan.Probe
import CellScan.Query
import CellScan.Range
import CellScan.Rounding
import CellScan.RowInterval
import CellScan.Scan
import CellScan.SortedList
import CellScan.Spec.Intersection
import CellScan.Spec.Predicate
import CellScan.Spec.Scan
import CellScan.Stack
import CellScan.Statistics
import CellScan.Status
import CellScan.Table
import CellScan.Tape
import CellScan.TermList
import CellScan.Text.Blank
import CellScan.Text.Decimal
import CellScan.Text.Fixed
import CellScan.Text.Hex
import CellScan.Text.Quoted
import CellScan.Text.Unprintable
import CellScan.Visibility
import CellScan.Proofs.Entries
import CellScan.Proofs.Calls
import CellScan.Proofs.Ranges
import CellScan.Proofs.Sources
import CellScan.Proofs.Filter
import CellScan.Proofs.Merge
import CellScan.Proofs.Stack
import CellScan.Proofs.Posting
import CellScan.Proofs.Probe
import CellScan.Proofs.Search
import CellScan.Proofs.Hidden
import CellScan.Proofs.Lockstep
import CellScan.Proofs.Stages
import CellScan.Proofs.Waiting
import CellScan.Proofs.Failures
import CellScan.Proofs.Rows
import CellScan.Proofs.Paging
import CellScan.Proofs.Bounded
import CellScan.Proofs.Rising
import CellScan.Proofs.Draining
import CellScan.Proofs.Circling
import CellScan.Proofs.Playing
import CellScan.Proofs.Ordered
import CellScan.Proofs.Copying
import CellScan.Proofs.Batches
import CellScan.Proofs.Deriving
import CellScan.Proofs.Encodings
import CellScan.Proofs.Widening
import CellScan.Proofs.Spelling
import CellScan.Proofs.Rereading
import CellScan.Proofs.Settings
import CellScan.Proofs.Recency
import CellScan.Proofs.Silence
import CellScan.Proofs.Stability
import CellScan.Proofs.Movers
import CellScan.Proofs.Standstill
import CellScan.Proofs.Violations
import CellScan.Proofs.Surfacing
import CellScan.Proofs.Parts
import CellScan.Proofs.Following
import CellScan.Proofs.Clipping
import CellScan.Proofs.Tallying
import CellScan.Proofs.Asking
import CellScan.Proofs.Building
