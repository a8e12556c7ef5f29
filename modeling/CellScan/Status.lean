/-
`Status.lean` -- what a caller is told when a call fails: a code and a text.
-/
set_option autoImplicit false

namespace CellScan

/-- The kind of a failure. -/
inductive Code where
  | configuration
  | ioError
  | labelParse
  | orderingViolation
  | invalidArgument
deriving DecidableEq

/-- The name of a code in texts. -/
def Code.name : Code → String
  | .configuration => "Configuration"
  | .ioError => "IOError"
  | .labelParse => "LabelParse"
  | .orderingViolation => "OrderingViolation"
  | .invalidArgument => "InvalidArgument"

/-- All codes. -/
def Code.all : List Code :=
  [.configuration, .ioError, .labelParse, .orderingViolation, .invalidArgument]

/-- A failure as it is reported. -/
structure Status where
  code : Code
  message : String
deriving DecidableEq

/-- The code's name, a colon and the message. -/
def Status.display (s : Status) : String := s.code.name ++ ": " ++ s.message

end CellScan
