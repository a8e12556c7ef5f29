/-
`Text/Quoted.lean` -- a text between double quotes.

The quote and the backslash are written after a backslash, as are the four
controls that have a letter of their own (`\0`, `\t`, `\r`, `\n`); every other
unprintable character is written by its number, `\u` and the digits in braces.
All else, the single quote included, stands for itself.
-/
import CellScan.Text.Hex
import CellScan.Text.Unprintable

set_option autoImplicit false

namespace CellScan.Text.Quoted

/-- One character between the quotes. -/
def encodeChar (c : Char) : String :=
  match c with
  | '\x00' => "\\0"
  | '\t' => "\\t"
  | '\r' => "\\r"
  | '\n' => "\\n"
  | '"' => "\\\""
  | '\\' => "\\\\"
  | _ => if isUnprintable c then "\\u\x7b" ++ Hex.number c.toNat ++ "\x7d" else c.toString

/-- The text between double quotes. -/
def encode (s : String) : String :=
  "\"" ++ String.join (s.toList.map encodeChar) ++ "\""

/-- A list of items between brackets, a comma and a space between neighbours. -/
def list (items : List String) : String := "[" ++ ", ".intercalate items ++ "]"

end CellScan.Text.Quoted
