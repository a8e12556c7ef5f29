/-
`Json/Writer.lean` -- writing JSON.

Two layouts: `compact` on one line, and `pretty` with one item or member on a
line, indented by two spaces a level. Texts are written with the shortest escape
for quotes, backslashes and controls, and otherwise as they are.
-/
import CellScan.Json
import CellScan.Text.Hex

set_option autoImplicit false

namespace CellScan.Json

open CellScan.Text

/-- One character of a text. -/
def writeChar (c : Char) : String :=
  match c with
  | '"' => "\\\""
  | '\\' => "\\\\"
  | '\x08' => "\\b"
  | '\t' => "\\t"
  | '\n' => "\\n"
  | '\x0c' => "\\f"
  | '\r' => "\\r"
  | _ => if c.toNat < 0x20 then "\\u" ++ Hex.padded 4 c.toNat else c.toString

/-- A text between quotes. -/
def writeText (s : String) : String :=
  "\"" ++ String.join (s.toList.map writeChar) ++ "\""

/-- A value that is neither a list nor a record with something in it. -/
def writeScalar : Json → String
  | .null => "null"
  | .bool b => if b then "true" else "false"
  | .number (.whole i) => toString i
  | .number (.other _) => "null"
  | .text s => writeText (s.getD "")
  | .list _ => "[]"
  | .record _ => "\x7b\x7d"

mutual
/-- A value on one line. -/
def compact : Json → String
  | .list items => "[" ++ ",".intercalate (compactItems items) ++ "]"
  | .record members => "\x7b" ++ ",".intercalate (compactMembers members) ++ "\x7d"
  | v => writeScalar v

/-- Items of a list, each on one line. -/
def compactItems : List Json → List String
  | [] => []
  | v :: vs => v.compact :: compactItems vs

/-- Members of a record, each on one line. -/
def compactMembers : List (Option String × Json) → List String
  | [] => []
  | (name, v) :: ms => (writeText (name.getD "") ++ ":" ++ v.compact) :: compactMembers ms
end

/-- The start of a line at a level. -/
def indent (level : Nat) : String := "".pushn ' ' (2 * level)

/-- Parts on lines of their own between two brackets. -/
def block (level : Nat) (opening closing : String) (parts : List String) : String :=
  if parts.isEmpty then opening ++ closing
  else
    opening ++ "\n" ++ ",\n".intercalate (parts.map (indent (level + 1) ++ ·)) ++ "\n"
      ++ indent level ++ closing

mutual
/-- A value on lines of their own, at a level. -/
def prettyAt (level : Nat) : Json → String
  | .list items => block level "[" "]" (prettyItems (level + 1) items)
  | .record members => block level "\x7b" "\x7d" (prettyMembers (level + 1) members)
  | v => writeScalar v

/-- Items of a list at a level. -/
def prettyItems (level : Nat) : List Json → List String
  | [] => []
  | v :: vs => v.prettyAt level :: prettyItems level vs

/-- Members of a record at a level. -/
def prettyMembers (level : Nat) : List (Option String × Json) → List String
  | [] => []
  | (name, v) :: ms =>
      (writeText (name.getD "") ++ ": " ++ v.prettyAt level) :: prettyMembers level ms
end

/-- A value on lines of their own. -/
def pretty (v : Json) : String := v.prettyAt 0

end CellScan.Json
