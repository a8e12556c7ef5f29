/-
`Range.lean` -- intervals of keys.

A range has a start and a stop, each missing, inclusive or exclusive, and never
starts after it stops: that is a field of the type, so every range there is was
built in order. `ofRow`, `ofColumn` and `ofRows?` bound whole rows and columns
by first keys; `ofKeys?` takes any two keys and refuses them when inverted.
-/
import CellScan.Key

set_option autoImplicit false

namespace CellScan

/-- An interval of keys. -/
structure Range where
  start : Option Key
  startInclusive : Bool
  stop : Option Key
  stopInclusive : Bool
  ordered : ∀ s ∈ start, ∀ e ∈ stop, s ≤ e
deriving DecidableEq

namespace Range

/-! ## Building ranges -/

/-- All keys. -/
def all : Range := ⟨none, true, none, true, by simp⟩

/-- The keys from `start` on. -/
def startingAt (start : Key) : Range := ⟨some start, true, none, true, by simp⟩

/-- The keys between two ends, or the two ends when they are the wrong way round. -/
def ofKeys? (start : Option Key) (startInclusive : Bool) (stop : Option Key)
    (stopInclusive : Bool) : Except (Key × Key) Range :=
  match start, stop with
  | some s, some e =>
      if h : s ≤ e then
        .ok ⟨some s, startInclusive, some e, stopInclusive, by
          intro s' hs e' he
          cases hs
          cases he
          exact h⟩
      else .error (s, e)
  | some s, none => .ok ⟨some s, startInclusive, none, stopInclusive, by simp⟩
  | none, stop => .ok ⟨none, startInclusive, stop, stopInclusive, by simp⟩

/-- The keys of one row. -/
def ofRow (row : Bytes) : Range :=
  ⟨some (Key.ofRow row), true, some ((Key.ofRow row).following .row), false, by
    intro s hs e he
    cases hs
    cases he
    exact Key.ofRow_le_following row⟩

/-- The keys of one column. -/
def ofColumn (row family qualifier : Bytes) : Range :=
  ⟨some (Key.ofColumn row family qualifier), true,
    some ((Key.ofColumn row family qualifier).following .qualifier), false, by
      intro s hs e he
      cases hs
      cases he
      exact Key.ofColumn_le_following row family qualifier⟩

/-- The first key of a row, or of the row after it. -/
def rowBound (row : Bytes) (next : Bool) : Key :=
  if next then (Key.ofRow row).following .row else Key.ofRow row

/-- The keys of the rows between two ends. -/
def ofRows? (start : Option Bytes) (startInclusive : Bool) (stop : Option Bytes)
    (stopInclusive : Bool) : Except (Key × Key) Range :=
  ofKeys? (start.map (rowBound · !startInclusive)) true (stop.map (rowBound · stopInclusive)) false

/-! ## Where a key lies -/

/-- Whether no key can be inside: the ends are one key and not both inclusive. -/
def isEmpty (r : Range) : Bool :=
  match r.start, r.stop with
  | some s, some e => s == e && !(r.startInclusive && r.stopInclusive)
  | _, _ => false

/-- Whether a key lies before the range. -/
def isBefore (r : Range) (k : Key) : Bool :=
  match r.start with
  | none => false
  | some s => if r.startInclusive then (compare k s).isLT else (compare k s).isLE

/-- Whether a key lies after the range. -/
def isAfter (r : Range) (k : Key) : Bool :=
  match r.stop with
  | none => false
  | some e => if r.stopInclusive then (compare k e).isGT else (compare k e).isGE

/-- Whether a key lies in the range. -/
def contains (r : Range) (k : Key) : Bool := !r.isBefore k && !r.isAfter k

/-! ## Where a row lies -/

/-- Whether a row lies before the row that the range starts in. -/
def isBeforeRow (r : Range) (row : Bytes) : Bool :=
  match r.start with
  | none => false
  | some s => (compare row s.row).isLT

/-- Whether a row's first live key lies after the range. -/
def isAfterRow (r : Range) (row : Bytes) : Bool := r.isAfter (Key.ofRow row)

/-- Whether a row is neither before nor after the range. -/
def containsRow (r : Range) (row : Bytes) : Bool :=
  !r.isEmpty && !r.isBeforeRow row && !r.isAfterRow row

/-- An empty range contains no key. -/
theorem not_contains_of_isEmpty {r : Range} (h : r.isEmpty = true) (k : Key) :
    r.contains k = false := by
  obtain ⟨start, si, stop, ei, ord⟩ := r
  cases start with
  | none => simp [isEmpty] at h
  | some s =>
    cases stop with
    | none => simp [isEmpty] at h
    | some e =>
      simp only [isEmpty, Bool.and_eq_true, beq_iff_eq, Bool.not_eq_true'] at h
      obtain ⟨rfl, hincl⟩ := h
      -- both ends are one key, and one of them at least leaves it out
      rcases hc : compare k s with _ | _ | _
      · cases si <;> simp [contains, isBefore, hc]
      · cases si <;> cases ei <;> simp_all [contains, isBefore, isAfter]
      · cases ei <;> simp [contains, isAfter, hc]

/-! ## Text -/

/-- A range in running text: brackets for inclusive ends, parentheses for
exclusive and infinite ones. -/
def display (r : Range) : String :=
  let first := match r.start with
    | some k => (if r.startInclusive then "[" else "(") ++ k.display
    | none => "(-inf"
  let last := match r.stop with
    | some k => "," ++ k.display ++ (if r.stopInclusive then "]" else ")")
    | none => ",+inf)"
  first ++ last

end Range

end CellScan
