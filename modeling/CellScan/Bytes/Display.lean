/-
`Bytes/Display.lean` -- the two ways byte strings appear in texts.

`display` is for running text: printable ASCII as it is, every other byte as a
percent sign, two digits and a semicolon. `literal` shows a value: text between
quotes where the bytes are UTF-8, their numbers where they are not.
-/
import CellScan.Bytes.Utf8
import CellScan.Text.Hex
import CellScan.Text.Quoted

set_option autoImplicit false

namespace CellScan.Bytes

open CellScan.Text

/-- A byte in running text. -/
def displayByte (b : UInt8) : String :=
  if 0x20 ≤ b ∧ b ≤ 0x7e then (Char.ofNat b.toNat).toString else "%" ++ Hex.byte b ++ ";"

/-- A byte string in running text. -/
def display (b : Bytes) : String := String.join (b.map displayByte)

/-- A byte string shown as a value. -/
def literal (b : Bytes) : String :=
  match b.toString? with
  | some s => "Slice(" ++ Quoted.encode s ++ ")"
  | none => "Slice(" ++ Quoted.list (b.map fun x => toString x.toNat) ++ ")"

end CellScan.Bytes
