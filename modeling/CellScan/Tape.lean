/-
`Tape.lean` -- a source that plays entries in the order they were recorded.

Nothing vouches for that order, and the tape serves every family whatever is asked
for. It may be unreadable at one position, where it stops with a failure but has
moved there all the same, and it may refuse to be copied. A tape is what the
stages above have to cope with when a source is damaged.
-/
import CellScan.Cursor

set_option autoImplicit false

namespace CellScan

/-- Recorded entries, the position played and the range sought. -/
structure Tape where
  entries : List Entry
  /-- The position that cannot be read, if there is one. -/
  unreadable : Option Nat
  /-- Whether the tape can be copied. -/
  copyable : Bool
  range : Range
  position : Option Nat

namespace Tape

/-- A tape that nobody has played yet. -/
def ofEntries (entries : List Entry) (unreadable : Option Nat) (copyable : Bool) : Tape :=
  ⟨entries, unreadable, copyable, Range.all, none⟩

/-- The first position whose key does not lie before a range, or the end. -/
def startOf (t : Tape) (range : Range) : Nat :=
  (t.entries.takeWhile fun e => range.isBefore e.1).length

/-- The failure at a position that cannot be read. -/
def unreadableAt (position : Nat) : Fault :=
  .reported ⟨.ioError, "unreadable entry " ++ toString position⟩

/-- The failure to copy. -/
def notCopyable : Fault := .reported ⟨.ioError, "cannot copy source"⟩

/-- Moves to a position, and fails there if it cannot be read. -/
def moveTo (position : Nat) : Action Tape Unit := fun t =>
  let moved := { t with position := some position }
  if t.unreadable = some position then ⟨.error (unreadableAt position), moved, []⟩
  else ⟨.ok (), moved, []⟩

/-- Moves on by one position, from where the tape stands. -/
def advance : Action Tape Unit := fun t =>
  match t.position with
  | none => ⟨.ok (), t, []⟩
  | some position => moveTo (position + 1) t

/-- The entry at the position, unless it lies after the range. -/
def current (t : Tape) : Option Entry :=
  match t.position with
  | none => none
  | some position => (t.entries[position]?).filter fun e => !t.range.isAfter e.1

instance : Cursor Tape where
  seek range _ := fun t => moveTo (t.startOf range) { t with range }
  top := current
  next := advance
  copy _ t :=
    if t.copyable then .ok { t with range := Range.all, position := none } else .error notCopyable
  reach t := t.entries.length

end Tape

end CellScan
