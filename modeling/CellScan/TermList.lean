/-
`TermList.lean` -- terms and flags of an intersection as option texts.

Terms are any bytes, so each is written in base 64, one to a line; a line end is
no character of base 64. Flags are written in base 64 as bytes 0 and 1.
-/
import CellScan.Base64
import CellScan.Fault

set_option autoImplicit false

namespace CellScan.TermList

/-- Terms as a text. The empty list is written like the list of one empty term. -/
def encode (terms : List Bytes) : String := "\n".intercalate (terms.map Base64.encode)

/-- The bytes of one line. -/
def decodeLine (line : List Char) : Except Fault Bytes :=
  match Base64.decodeChars line with
  | some b => .ok b
  | none => .error .base64

/-- The terms of a text, one at least. -/
def decode (text : String) : Except Fault (List Bytes) := (text.toList.splitOn '\n').mapM decodeLine

/-- Flags as a text. -/
def encodeFlags (flags : List Bool) : String :=
  Base64.encode (flags.map fun f => if f then 1 else 0)

/-- The flag of a byte. -/
def decodeFlag (b : UInt8) : Except Fault Bool :=
  if b = 0 then .ok false else if b = 1 then .ok true else .error (.flagByte b)

/-- The flags of a text. -/
def decodeFlags (text : String) : Except Fault (List Bool) :=
  match Base64.decode? text with
  | some b => b.mapM decodeFlag
  | none => .error .base64

end CellScan.TermList
