/-
`Json.lean` -- JSON values, and when a value can be kept.

A value that is only passed over need not mean anything: its texts may name
half a surrogate pair and its numbers may be larger than any double. So the
reader keeps grammar and meaning apart. A text is `none` where its escapes do
not spell one, and a number that is not a whole number in range only says
whether it is finite. `isSound` is the condition for keeping a value.
-/
set_option autoImplicit false

namespace CellScan

/-- A number: a whole number from `-2 ^ 63` to `2 ^ 64 - 1`, or any other, of
which only finiteness matters here. -/
inductive Json.Number where
  | whole (value : Int)
  | other (finite : Bool)
deriving DecidableEq

/-- A JSON value. Texts and member names are missing where their escapes spell
none; members keep their order and may repeat. -/
inductive Json where
  | null
  | bool (value : Bool)
  | number (value : Json.Number)
  | text (value : Option String)
  | list (items : List Json)
  | record (members : List (Option String × Json))

namespace Json

/-- A text as a value. -/
def ofString (s : String) : Json := .text (some s)

/-- A whole number as a value. -/
def ofInt (i : Int) : Json := .number (.whole i)

/-- A record with the given members. -/
def ofMembers (members : List (String × Json)) : Json :=
  .record (members.map fun (name, value) => (some name, value))

mutual
/-- Whether a value can be kept: all texts in it are spelled, all numbers finite. -/
def isSound : Json → Bool
  | .null => true
  | .bool _ => true
  | .number (.whole _) => true
  | .number (.other finite) => finite
  | .text value => value.isSome
  | .list items => allSound items
  | .record members => membersSound members

/-- Whether all of the values can be kept. -/
def allSound : List Json → Bool
  | [] => true
  | v :: vs => v.isSound && allSound vs

/-- Whether all of the members can be kept, names included. -/
def membersSound : List (Option String × Json) → Bool
  | [] => true
  | (name, v) :: ms => name.isSome && v.isSound && membersSound ms
end

mutual
/-- How many lists and records are open at the deepest point of a value. -/
def depth : Json → Nat
  | .list items => listDepth items + 1
  | .record members => membersDepth members + 1
  | _ => 0

/-- The greatest depth of the values. -/
def listDepth : List Json → Nat
  | [] => 0
  | v :: vs => max v.depth (listDepth vs)

/-- The greatest depth of the members' values. -/
def membersDepth : List (Option String × Json) → Nat
  | [] => 0
  | (_, v) :: ms => max v.depth (membersDepth ms)
end

/-- How many lists and records may be open where values are kept. -/
def depthLimit : Nat := 127

end Json

end CellScan
