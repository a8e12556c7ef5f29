/-
`Stack.lean` -- stages upon stages upon sources.

A stage wraps cursors of one type and is a cursor again, so stages can be put upon
one another in any order. `Stack σ n` is what `n` layers of them upon sources of
type `σ` come to. A layer may be empty: then there is the stack below and nothing
else, which is how stacks of different heights meet in one merge. `Tower` forgets
the height.
-/
import CellScan.Filter
import CellScan.Intersection
import CellScan.Merge
import CellScan.Table
import CellScan.Tape

set_option autoImplicit false

namespace CellScan

/-! ## Sources -/

/-- The sources there are. -/
inductive Source where
  | table (t : Table)
  | tape (t : Tape)

namespace Source

instance : Cursor Source where
  seek range families
    | .table t => (Cursor.seek range families t).within .table
    | .tape t => (Cursor.seek range families t).within .tape
  top
    | .table t => Cursor.top t
    | .tape t => Cursor.top t
  next
    | .table t => (Cursor.next t).within .table
    | .tape t => (Cursor.next t).within .tape
  copy env
    | .table t => (Cursor.copy env t).map .table
    | .tape t => (Cursor.copy env t).map .tape
  reach
    | .table t => Cursor.reach t
    | .tape t => Cursor.reach t

end Source

/-! ## Layers -/

/-- A stage upon cursors, or nothing upon one of them. -/
inductive Layer (σ : Type) where
  | bare (s : σ)
  | merge (m : Merge σ)
  | filter (f : Filter σ)
  | intersection (x : Intersection σ)

namespace Layer

variable {σ : Type} [Cursor σ]

instance cursor : Cursor (Layer σ) where
  seek range families
    | .bare s => (Cursor.seek range families s).within .bare
    | .merge m => (Cursor.seek range families m).within .merge
    | .filter f => (Cursor.seek range families f).within .filter
    | .intersection x => (Cursor.seek range families x).within .intersection
  top
    | .bare s => Cursor.top s
    | .merge m => Cursor.top m
    | .filter f => Cursor.top f
    | .intersection x => Cursor.top x
  next
    | .bare s => (Cursor.next s).within .bare
    | .merge m => (Cursor.next m).within .merge
    | .filter f => (Cursor.next f).within .filter
    | .intersection x => (Cursor.next x).within .intersection
  copy env
    | .bare s => (Cursor.copy env s).map .bare
    | .merge m => (Cursor.copy env m).map .merge
    | .filter f => (Cursor.copy env f).map .filter
    | .intersection x => (Cursor.copy env x).map .intersection
  reach
    | .bare s => Cursor.reach s
    | .merge m => Cursor.reach m
    | .filter f => Cursor.reach f
    | .intersection x => Cursor.reach x

end Layer

/-! ## Stacks -/

/-- So many layers upon sources. -/
def Stack (σ : Type) : Nat → Type
  | 0 => σ
  | n + 1 => Layer (Stack σ n)

namespace Stack

variable {σ : Type}

/-- A stack is a cursor if its sources are. -/
instance cursor [Cursor σ] : (n : Nat) → Cursor (Stack σ n)
  | 0 => inferInstanceAs (Cursor σ)
  | n + 1 => @Layer.cursor (Stack σ n) (cursor n)

/-- A stack as one of greater height. -/
def raise {n : Nat} (s : Stack σ n) : (k : Nat) → Stack σ (n + k)
  | 0 => s
  | k + 1 => .bare (raise s k)

/-- A stack as one of a given height. -/
def raiseTo {n m : Nat} (s : Stack σ n) (h : n ≤ m) : Stack σ m :=
  Nat.add_sub_of_le h ▸ s.raise (m - n)

end Stack

/-! ## Towers -/

/-- A stack of some height. -/
structure Tower (σ : Type) where
  height : Nat
  stack : Stack σ height

namespace Tower

variable {σ : Type}

/-- A source alone. -/
def ofSource (s : σ) : Tower σ := ⟨0, s⟩

/-- The greatest height of some towers. -/
def greatest (ts : List (Tower σ)) : Nat := (ts.map height).foldr max 0

/-- A tower of a list is no higher than the greatest height. -/
theorem height_le_greatest {t : Tower σ} {ts : List (Tower σ)} (h : t ∈ ts) :
    t.height ≤ greatest ts := by
  induction ts with
  | nil => cases h
  | cons u us ih =>
      rw [greatest, List.map_cons, List.foldr_cons]
      rcases List.mem_cons.mp h with rfl | h
      · exact Nat.le_max_left _ _
      · exact Nat.le_trans (ih h) (Nat.le_max_right _ _)

/-- Towers as stacks of one height. -/
def level (ts : List (Tower σ)) : List (Stack σ (greatest ts)) :=
  ts.attach.map fun ⟨t, h⟩ => t.stack.raiseTo (height_le_greatest h)

instance [Cursor σ] : Cursor (Tower σ) where
  seek range families t := (Cursor.seek range families t.stack).within (⟨t.height, ·⟩)
  top t := Cursor.top t.stack
  next t := (Cursor.next t.stack).within (⟨t.height, ·⟩)
  copy env t := (Cursor.copy env t.stack).map (⟨t.height, ·⟩)
  reach t := Cursor.reach t.stack

end Tower

end CellScan
