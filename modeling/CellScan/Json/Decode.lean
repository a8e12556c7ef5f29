/-
`Json/Decode.lean` -- reading meaning out of JSON values.

One reader for each shape: texts, flags, whole numbers, lists, values that may be
null, and records. A record gives the values of the fields it is known to have;
it ignores others and refuses a known field that repeats. It may also be written
as the list of its fields in order. A *tagged* record says by one field which
kind it is; its other values are kept before they are read, so they must be
sound and not too deep.
-/
import CellScan.Json

set_option autoImplicit false

namespace CellScan.Json

/-! ## Plain values -/

/-- A text. -/
def asText? : Json → Option String
  | .text s => s
  | _ => none

/-- A flag. -/
def flag? : Json → Option Bool
  | .bool b => some b
  | _ => none

/-- A whole number. -/
def whole? : Json → Option Int
  | .number (.whole i) => some i
  | _ => none

/-- A signed number of 64 bits. -/
def int64? (v : Json) : Option Int64 :=
  match v.whole? with
  | some i => if Int64.minValue.toInt ≤ i ∧ i ≤ Int64.maxValue.toInt then some (Int64.ofInt i) else none
  | none => none

/-- A number of 64 bits that is not negative. -/
def size? (v : Json) : Option UInt64 :=
  match v.whole? with
  | some i => if 0 ≤ i ∧ i < UInt64.size then some (UInt64.ofNat i.toNat) else none
  | none => none

/-- A list, each item read in turn. -/
def list? {α : Type} (item : Json → Option α) : Json → Option (List α)
  | .list vs => vs.mapM item
  | _ => none

/-- A value that may be null. -/
def nullable? {α : Type} (read : Json → Option α) : Json → Option (Option α)
  | .null => some none
  | v => (read v).map some

/-! ## Records -/

/-- The fields of a record, by name. -/
abbrev Fields : Type := List (String × Json)

/-- The members whose names are known, or nothing where one of those repeats or a
name is not spelled. -/
def knownMembers? (known : List String) (ms : List (Option String × Json)) : Option Fields := do
  let named ← ms.mapM fun (name, v) => name.map (·, v)
  let fields := named.filter fun (name, _) => known.contains name
  if (fields.map Prod.fst).Nodup then some fields else none

/-- The fields of a record, or of the list of its fields in order. -/
def fields? (known : List String) : Json → Option Fields
  | .record ms => knownMembers? known ms
  | .list vs => if vs.length ≤ known.length then some (known.zip vs) else none
  | _ => none

/-- The value of a field that has to be there. -/
def Fields.required? {α : Type} (fs : Fields) (name : String) (read : Json → Option α) : Option α :=
  (fs.lookup name).bind read

/-- The value of a field with a default. -/
def Fields.value? {α : Type} (fs : Fields) (name : String) (default : α)
    (read : Json → Option α) : Option α :=
  match fs.lookup name with
  | none => some default
  | some v => read v

/-- The kind of a tagged record and what is left of the record without its tag.
`levels` lists and records are open around it. -/
def tagged? (tag : String) (levels : Nat) (v : Json) : Option (String × Json) :=
  if v.isSound ∧ levels + v.depth ≤ depthLimit then
    match v with
    | .record ms =>
        match ms.filter (·.1 = some tag) with
        | [(_, kind)] => kind.asText?.map (·, .record (ms.filter (·.1 ≠ some tag)))
        | _ => none
    | .list (kind :: vs) => kind.asText?.map (·, .list vs)
    | _ => none
  else none

end CellScan.Json
