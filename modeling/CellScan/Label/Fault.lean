/-
`Label/Fault.lean` -- why a byte string is no label, and where that shows.
-/
import CellScan.Bytes.Display

set_option autoImplicit false

namespace CellScan

/-- What is wrong with a label. -/
inductive Label.Reason where
  | unbalancedClose
  | mixedOperators
  | expectedOperator
  | expectedTerm
  | nestingTooDeep
  | missingClose
  | unexpectedCharacter
  | unterminatedQuote
  | invalidEscape
  | emptyQuote
deriving DecidableEq

/-- The reason in words. -/
def Label.Reason.text : Label.Reason → String
  | .unbalancedClose => "unbalanced closing parenthesis"
  | .mixedOperators => "cannot mix '&' and '|' without parentheses"
  | .expectedOperator => "expected operator"
  | .expectedTerm => "expected term"
  | .nestingTooDeep => "nesting too deep"
  | .missingClose => "missing closing parenthesis"
  | .unexpectedCharacter => "unexpected character"
  | .unterminatedQuote => "unterminated quoted token"
  | .invalidEscape => "invalid escape sequence"
  | .emptyQuote => "empty quoted token"

/-- A byte string that is no label: the reason and the position it was found at. -/
structure Label.Fault where
  reason : Label.Reason
  offset : Nat
  label : Bytes
deriving DecidableEq

/-- The fault in words. -/
def Label.Fault.text (f : Label.Fault) : String :=
  f.reason.text ++ " at offset " ++ toString f.offset ++ " in label " ++ f.label.display

end CellScan
