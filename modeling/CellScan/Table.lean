/-
`Table.lean` -- a source over cells in memory.

The cells are held in key order, one for each key: that is a field of the type, and
no call changes them. Of a seek a table keeps the range and the families, and of the
cells only the one it stands at. To go on it looks the cells up anew from a lower
bound, which is the start of the range at first and then the key it leaves, and walks
to the first cell asked for: a cell after the range ends the walk, a cell of another
family is passed over.
-/
import CellScan.Cursor

set_option autoImplicit false

namespace CellScan

/-! ## Lower bounds -/

/-- Where a walk through cells in key order begins. -/
inductive LowerBound where
  | unbounded
  | included (key : Key)
  | excluded (key : Key)

/-- Whether a walk from the bound comes to a key. -/
def LowerBound.admits : LowerBound → Key → Bool
  | .unbounded, _ => true
  | .included k, k' => (compare k' k).isGE
  | .excluded k, k' => (compare k' k).isGT

/-- The bound that the start of a range sets. -/
def Range.lower (r : Range) : LowerBound :=
  match r.start with
  | none => .unbounded
  | some s => if r.startInclusive then .included s else .excluded s

/-! ## Tables -/

/-- Cells in key order, what was last sought among them, and the cell stood at. -/
structure Table where
  entries : List Entry
  sorted : SortedList.Sorted Prod.fst entries
  range : Range
  families : FamilyFilter
  current : Option Entry
  /-- A table stands at a cell of its own. -/
  held : ∀ e ∈ current, e ∈ entries

namespace Table

/-- The table of cells in key order that stands at none of them. -/
def fresh (entries : List Entry) (sorted : SortedList.Sorted Prod.fst entries) : Table :=
  ⟨entries, sorted, Range.all, FamilyFilter.all, none, by simp⟩

/-- The table of some entries; of several with one key the last one counts. -/
def ofEntries (entries : List Entry) : Table :=
  fresh (SortedList.insertAllBy Prod.fst entries [])
    (SortedList.sorted_insertAllBy Prod.fst entries List.Pairwise.nil)

/-- The number of cells. -/
def size (t : Table) : Nat := t.entries.length

/-- The cells from a bound on. -/
def behind (t : Table) (lower : LowerBound) : List Entry :=
  t.entries.dropWhile fun e => !lower.admits e.1

/-- The cell that a walk through cells in key order stops at, if it does not end before. -/
def walk (range : Range) (families : FamilyFilter) : List Entry → Option Entry
  | [] => none
  | e :: es =>
      if range.isAfter e.1 then none
      else if families.accepts e.1.family then some e
      else walk range families es

theorem mem_of_walk {range : Range} {families : FamilyFilter} {es : List Entry} {e : Entry}
    (h : walk range families es = some e) : e ∈ es := by
  induction es with
  | nil => exact absurd h (by simp [walk])
  | cons x es ih =>
      rw [walk] at h
      split at h
      · exact absurd h (by simp)
      · split at h
        · exact Option.some.inj h ▸ List.mem_cons_self
        · exact List.mem_cons_of_mem x (ih h)

/-- The table at the first cell from a bound on that is asked for. -/
def advanceFrom (t : Table) (lower : LowerBound) : Table :=
  { t with
    current := walk t.range t.families (t.behind lower)
    held := fun _ he => (List.dropWhile_sublist _).mem (mem_of_walk he) }

/-- The table at no cell. -/
def cleared (t : Table) : Table := { t with current := none, held := by simp }

/-- The table at the first cell of a range and of the families asked for. An empty
range is not looked up. -/
def placed (t : Table) (range : Range) (families : FamilyFilter) : Table :=
  let asked := { t.cleared with range, families }
  if range.isEmpty then asked else asked.advanceFrom range.lower

/-- Leaves the cell stood at for the next one asked for. -/
def advance : Action Table Unit := fun t =>
  match t.current with
  | none => ⟨.error .nothingToLeave, t, []⟩
  | some e => ⟨.ok (), t.cleared.advanceFrom (.excluded e.1), []⟩

instance : Cursor Table where
  seek range families := Action.change fun t => t.placed range families
  top := current
  next := advance
  copy _ t := .ok (fresh t.entries t.sorted)
  reach := size

end Table

end CellScan
