/-
`Key.lean` -- the keys of cells and their order.

A key names a cell by row, column family, column qualifier and visibility
label, says when it was written and whether it marks a deletion. Keys ascend in
the four byte strings, then *descend* in time and put a deletion marker before
what it deletes. Every comparison up to some part refines the one before it, so
each is written as the one before followed by one component.

`following` is the least key after every key that agrees up to a part.
-/
import CellScan.Bytes.Display

set_option autoImplicit false

namespace CellScan

/-- The key of a cell. -/
structure Key where
  row : Bytes
  family : Bytes
  qualifier : Bytes
  visibility : Bytes
  timestamp : Int64
  deleted : Bool
deriving DecidableEq

/-- How far two keys are compared: up to and with this component. -/
inductive Key.Part where
  | row
  | family
  | qualifier
  | visibility
  | timestamp
  | deletion
deriving DecidableEq

namespace Key

/-! ## First keys -/

/-- The first key of a row that is not a deletion marker. -/
def ofRow (row : Bytes) : Key := ⟨row, [], [], [], Int64.maxValue, false⟩

/-- The first key of a column family that is not a deletion marker. -/
def ofFamily (row family : Bytes) : Key := ⟨row, family, [], [], Int64.maxValue, false⟩

/-- The first key of a column that is not a deletion marker. -/
def ofColumn (row family qualifier : Bytes) : Key :=
  ⟨row, family, qualifier, [], Int64.maxValue, false⟩

/-- The key with its deletion marker set or cleared. -/
def withDeleted (k : Key) (deleted : Bool) : Key := { k with deleted := deleted }

/-! ## Order -/

/-- By row. -/
def byRow : Key → Key → Ordering := compareOn row

/-- By row and family. -/
def byFamily : Key → Key → Ordering := compareLex byRow (compareOn family)

/-- By row, family and qualifier. -/
def byQualifier : Key → Key → Ordering := compareLex byFamily (compareOn qualifier)

/-- By row, family, qualifier and visibility. -/
def byVisibility : Key → Key → Ordering := compareLex byQualifier (compareOn visibility)

/-- By all but the deletion marker; a later time comes first. -/
def byTimestamp : Key → Key → Ordering :=
  compareLex byVisibility fun a b => compareOn timestamp b a

/-- By all components; a deletion marker comes first. -/
def byDeletion : Key → Key → Ordering :=
  compareLex byTimestamp fun a b => compareOn deleted b a

/-- The comparison up to a part. -/
def compareUpTo : Part → Key → Key → Ordering
  | .row => byRow
  | .family => byFamily
  | .qualifier => byQualifier
  | .visibility => byVisibility
  | .timestamp => byTimestamp
  | .deletion => byDeletion

/-- Whether two keys agree up to a part. -/
def agreesUpTo (part : Part) (a b : Key) : Bool := compareUpTo part a b == .eq

instance : Ord Key := ⟨byDeletion⟩

instance : LT Key := ltOfOrd

instance : LE Key := leOfOrd

/-! Each comparison is the one before it, then one component. -/

theorem byRow_eq (a b : Key) : byRow a b = compare a.row b.row := rfl

theorem byFamily_eq (a b : Key) : byFamily a b = (byRow a b).then (compare a.family b.family) := rfl

theorem byQualifier_eq (a b : Key) :
    byQualifier a b = (byFamily a b).then (compare a.qualifier b.qualifier) := rfl

theorem byVisibility_eq (a b : Key) :
    byVisibility a b = (byQualifier a b).then (compare a.visibility b.visibility) := rfl

theorem byTimestamp_eq (a b : Key) :
    byTimestamp a b = (byVisibility a b).then (compare b.timestamp a.timestamp) := rfl

theorem byDeletion_eq (a b : Key) :
    byDeletion a b = (byTimestamp a b).then (compare b.deleted a.deleted) := rfl

theorem compare_eq (a b : Key) : compare a b = byDeletion a b := rfl

instance : Std.TransCmp byRow := inferInstanceAs (Std.TransCmp (compareOn row))

instance : Std.TransCmp byFamily := inferInstanceAs (Std.TransCmp (compareLex _ _))

instance : Std.TransCmp byQualifier := inferInstanceAs (Std.TransCmp (compareLex _ _))

instance : Std.TransCmp byVisibility := inferInstanceAs (Std.TransCmp (compareLex _ _))

instance : Std.TransCmp fun a b => compareOn timestamp b a :=
  Std.TransCmp.opposite

instance : Std.TransCmp fun a b => compareOn deleted b a :=
  Std.TransCmp.opposite

instance : Std.TransCmp byTimestamp := inferInstanceAs (Std.TransCmp (compareLex _ _))

instance : Std.TransCmp byDeletion := inferInstanceAs (Std.TransCmp (compareLex _ _))

instance : Std.TransOrd Key := inferInstanceAs (Std.TransCmp byDeletion)

/-- Keys that compare equal are equal. -/
instance : Std.LawfulEqOrd Key where
  compare_self := fun {k} => @Std.ReflCmp.compare_self Key byDeletion _ k
  eq_of_compare := by
    intro a b h
    simp only [compare_eq, byDeletion_eq, byTimestamp_eq, byVisibility_eq, byQualifier_eq,
      byFamily_eq, byRow_eq, Ordering.then_eq_eq, Std.LawfulEqOrd.compare_eq_iff_eq] at h
    obtain ⟨⟨⟨⟨⟨hr, hf⟩, hq⟩, hv⟩, ht⟩, hd⟩ := h
    cases a
    cases b
    simp only [Key.mk.injEq]
    exact ⟨hr, hf, hq, hv, ht.symm, hd.symm⟩

/-! ## Following keys -/

/-- The least live key after every key that agrees with `k` up to its
visibility. -/
def afterVisibility (k : Key) : Key :=
  ⟨k.row, k.family, k.qualifier, k.visibility.successor, Int64.maxValue, false⟩

/-- The least live key after every key that agrees with `k` up to its
timestamp. Time runs backwards in key order, so this is one tick earlier, and
past the earliest time the next visibility. -/
def afterTimestamp (k : Key) : Key :=
  if k.timestamp = Int64.minValue then k.afterVisibility
  else ⟨k.row, k.family, k.qualifier, k.visibility, k.timestamp - 1, false⟩

/-- The key after all keys that agree with `k` up to the part: the least one that
is not a deletion marker, or the very next key when the part is the whole key. -/
def following (k : Key) : Part → Key
  | .row => ofRow k.row.successor
  | .family => ofFamily k.row k.family.successor
  | .qualifier => ofColumn k.row k.family k.qualifier.successor
  | .visibility => k.afterVisibility
  | .timestamp => k.afterTimestamp
  | .deletion =>
      if k.deleted then k.withDeleted false else k.afterTimestamp.withDeleted true

/-- A row's first key lies before the next row's. -/
theorem ofRow_le_following (r : Bytes) : ofRow r ≤ (ofRow r).following .row := by
  have hrow : byRow (ofRow r) ((ofRow r).following .row) = .lt := Bytes.compare_successor r
  have h : compare (ofRow r) ((ofRow r).following .row) = .lt := by
    rw [compare_eq, byDeletion_eq, byTimestamp_eq, byVisibility_eq, byQualifier_eq, byFamily_eq,
      hrow]
    rfl
  show (compare (ofRow r) ((ofRow r).following .row)).isLE = true
  rw [h]
  rfl

/-- A column's first key lies before the next column's. -/
theorem ofColumn_le_following (r f q : Bytes) :
    ofColumn r f q ≤ (ofColumn r f q).following .qualifier := by
  have hrow : byRow (ofColumn r f q) ((ofColumn r f q).following .qualifier) = .eq :=
    @Std.ReflCmp.compare_self Bytes compare _ r
  have hfam : compare f f = .eq := Std.ReflCmp.compare_self
  have hcol : compare q q.successor = .lt := Bytes.compare_successor q
  have h : compare (ofColumn r f q) ((ofColumn r f q).following .qualifier) = .lt := by
    rw [compare_eq, byDeletion_eq, byTimestamp_eq, byVisibility_eq, byQualifier_eq, byFamily_eq,
      hrow]
    show ((((Ordering.eq.then (compare f f)).then (compare q q.successor)).then _).then _).then _ = _
    rw [hfam, hcol]
    rfl
  show (compare (ofColumn r f q) ((ofColumn r f q).following .qualifier)).isLE = true
  rw [h]
  rfl

/-! ## Text -/

/-- A key in running text: row, family and qualifier, the label in brackets, the
time and the deletion marker. -/
def display (k : Key) : String :=
  k.row.display ++ " " ++ k.family.display ++ ":" ++ k.qualifier.display ++ " ["
    ++ k.visibility.display ++ "] " ++ toString k.timestamp.toInt ++ " " ++ toString k.deleted

end Key

end CellScan
