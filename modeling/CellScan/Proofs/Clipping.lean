/-
`Clipping.lean` -- ranges of rows and columns, and the rows of a range.

A range of rows is bounded by first keys, and so is a range of a column. Those are first live
keys: the deletion marker that differs from one in nothing else lies right before it. So such a
range holds its rows, or its column, but for one marker at the start that it leaves out and one
behind the end that it takes in (`contains_rows_iff`).

The other way round, a range is clipped by rows. A row lies before the range exactly if all its
keys do, and after it exactly if all its live keys do (`clips_rows`), so no live key of the range
lies in a row that is clipped away.
-/
import CellScan.Proofs.Following
import CellScan.Proofs.Ranges

set_option autoImplicit false

namespace CellScan

open scoped Linear

/-! ## Bounds -/

namespace Key

variable {f k : Key} {p : Part}

theorem following_live (hp : p ≠ .deletion) : (f.following p).deleted = false := by
  cases p with
  | timestamp =>
      show f.afterTimestamp.deleted = false
      rw [afterTimestamp]
      split <;> rfl
  | deletion => exact absurd rfl hp
  | _ => rfl

/-- Between a first live key and the following one lie the keys that agree with it, the marker
right before the one apart, and the marker right before the other. -/
theorem within_following_iff (hp : p ≠ .deletion) (hfirst : f.first p = f)
    (hlive : f.deleted = false) :
    f ≤ k ∧ k < f.following p
      ↔ (compareUpTo p k f = .eq ∧ k ≠ f.withDeleted true)
        ∨ k = (f.following p).withDeleted true := by
  have hnext := following_live (f := f) hp
  rw [← not_lt, lt_iff_of_first hfirst hlive, lt_iff_of_first (first_following f p) hnext,
    compareUpTo_following, not_or]
  constructor
  · rintro ⟨⟨hbefore, hmarker⟩, hle | rfl⟩
    · refine Or.inl ⟨?_, hmarker⟩
      rcases hc : compareUpTo p k f with _ | _ | _
      · exact absurd hc hbefore
      · rfl
      · rw [hc] at hle
        exact absurd hle (by decide)
    · exact Or.inr rfl
  · rintro (⟨htie, hmarker⟩ | rfl)
    · rw [htie]
      exact ⟨⟨by decide, hmarker⟩, Or.inl rfl⟩
    · -- the first key lies before the following one, so not behind the marker right before that
      have hle : f ≤ (f.following p).withDeleted true :=
        (marker_covBy hnext).le_of_lt (lt_following Std.ReflCmp.isLE_rfl)
      refine ⟨⟨fun hlt => ?_, fun hsame => ?_⟩, Or.inr rfl⟩
      · exact absurd (lt_of_compareUpTo hlt) (not_lt.mpr hle)
      · rw [hsame] at hle
        exact absurd (marker_covBy hlive).lt (not_lt.mpr hle)

/-- Before the first key of a row lie the earlier rows and the marker right before it. -/
theorem lt_ofRow_iff {row : Bytes} :
    k < ofRow row ↔ k.row < row ∨ k = (ofRow row).withDeleted true := by
  rw [lt_iff_of_first (p := .row) rfl rfl]
  exact or_congr_left Std.compare_eq_lt

end Key

namespace Range

variable {r range : Range} {k : Key}

/-! ## Ranges of rows and columns -/

/-- The range of a row holds the row's keys, one marker apart, and the marker right before the
next row. -/
theorem contains_row_iff {row : Bytes} :
    (ofRow row).contains k = true
      ↔ (k.row = row ∧ k ≠ (Key.ofRow row).withDeleted true)
        ∨ k = (Key.ofRow row.successor).withDeleted true := by
  have htie : Key.compareUpTo .row k (Key.ofRow row) = .eq ↔ k.row = row :=
    Std.LawfulEqOrd.compare_eq_iff_eq
  rw [← htie]
  refine contains_iff.trans (Iff.trans ?_ (Key.within_following_iff (by decide) rfl rfl))
  simp [ofRow]

/-- The range of a column holds the column's keys, one marker apart, and the marker right before
the next column. -/
theorem contains_column_iff {row family qualifier : Bytes} :
    (ofColumn row family qualifier).contains k = true
      ↔ ((k.row = row ∧ k.family = family ∧ k.qualifier = qualifier)
          ∧ k ≠ (Key.ofColumn row family qualifier).withDeleted true)
        ∨ k = (Key.ofColumn row family qualifier.successor).withDeleted true := by
  have htie : Key.compareUpTo .qualifier k (Key.ofColumn row family qualifier) = .eq
      ↔ k.row = row ∧ k.family = family ∧ k.qualifier = qualifier := by
    rw [Key.compareUpTo, Key.byQualifier_eq, Key.byFamily_eq, Key.byRow_eq, Ordering.then_eq_eq,
      Ordering.then_eq_eq, and_assoc]
    simp [Key.ofColumn]
  rw [← htie]
  refine contains_iff.trans (Iff.trans ?_ (Key.within_following_iff (by decide) rfl rfl))
  simp [ofColumn]

/-- Deletion markers in front of a whole column apart, the keys in the range of a column are
those with its three names. -/
theorem contains_ofColumn_iff {row family qualifier : Bytes} (hk : k.isForemost = false) :
    (ofColumn row family qualifier).contains k = true
      ↔ k.row = row ∧ k.family = family ∧ k.qualifier = qualifier := by
  have hne : ∀ q, k ≠ (Key.ofColumn row family q).withDeleted true := by
    rintro q rfl
    exact Bool.noConfusion hk
  rw [contains_column_iff, or_iff_left (hne _), and_iff_left (hne _)]

/-- The first key of a row or of the next one has the rows behind it that are meant. -/
theorem lt_rowBound_iff {row : Bytes} {next : Bool} :
    k < rowBound row next
      ↔ (k.row < row ∨ k.row = row ∧ next = true) ∨ k = (rowBound row next).withDeleted true := by
  cases next with
  | false =>
      show k < Key.ofRow row ↔ _
      rw [Key.lt_ofRow_iff]
      simp [rowBound]
  | true =>
      show k < Key.ofRow row.successor ↔ _
      rw [Key.lt_ofRow_iff, ← not_le, Bytes.successor_le_iff, not_lt, le_iff_lt_or_eq]
      simp [rowBound, Key.following, Key.ofRow]

theorem rowBound_le_iff {row : Bytes} {next : Bool} :
    rowBound row next ≤ k
      ↔ (row < k.row ∨ row = k.row ∧ next = false)
        ∧ k ≠ (rowBound row next).withDeleted true := by
  rw [← not_lt, lt_rowBound_iff, not_or]
  refine and_congr_left' ?_
  cases next with
  | false => simp [le_iff_lt_or_eq]
  | true => simp [← le_iff_lt_or_eq]

/-- The bounds of a range of rows. -/
theorem contains_ofRows?_iff {start stop : Option Bytes} {startInclusive stopInclusive : Bool}
    (h : ofRows? start startInclusive stop stopInclusive = .ok range) (k : Key) :
    range.contains k = true
      ↔ (∀ s ∈ start, rowBound s (!startInclusive) ≤ k)
        ∧ ∀ e ∈ stop, k < rowBound e stopInclusive := by
  obtain ⟨hstart, hstartInclusive, hstop, hstopInclusive⟩ := ofKeys?_eq_ok_iff.mp h
  rw [contains_iff, hstart, hstartInclusive, hstop, hstopInclusive]
  simp

/-- A range of one row or of one column holds its keys, but for the deletion marker right before
the first live one, and holds the marker right before the next row or column. A range of rows
likewise leaves out the marker right before the first row it holds, and takes in the one right
before the row behind the last. -/
theorem contains_rows_iff {start stop : Option Bytes} {startInclusive stopInclusive : Bool}
    (h : ofRows? start startInclusive stop stopInclusive = .ok range)
    (row family qualifier : Bytes) (k : Key) :
    ((ofRow row).contains k = true
        ↔ (k.row = row ∧ k ≠ (Key.ofRow row).withDeleted true)
          ∨ k = (Key.ofRow row.successor).withDeleted true)
      ∧ ((ofColumn row family qualifier).contains k = true
        ↔ ((k.row = row ∧ k.family = family ∧ k.qualifier = qualifier)
            ∧ k ≠ (Key.ofColumn row family qualifier).withDeleted true)
          ∨ k = (Key.ofColumn row family qualifier.successor).withDeleted true)
      ∧ (range.contains k = true
        ↔ (∀ s ∈ start, (s < k.row ∨ s = k.row ∧ startInclusive = true)
            ∧ k ≠ (rowBound s (!startInclusive)).withDeleted true)
          ∧ ∀ e ∈ stop, (k.row < e ∨ k.row = e ∧ stopInclusive = true)
            ∨ k = (rowBound e stopInclusive).withDeleted true) := by
  refine ⟨contains_row_iff, contains_column_iff, ?_⟩
  rw [contains_ofRows?_iff h]
  refine and_congr (forall₂_congr fun s _ => ?_) (forall₂_congr fun e _ => lt_rowBound_iff)
  rw [rowBound_le_iff, Bool.not_eq_false']

/-- The rows from `[2]` to `[4]`. -/
def twoToFour : Range :=
  ⟨some (Key.ofRow [2]), true, some (Key.ofRow [4, 0]), false, by
    rintro s ⟨⟩ e ⟨⟩
    decide⟩

/-- A deletion marker inside the last row, and a cell of the row behind the last. -/
theorem contains_rows_twoToFour :
    ofRows? (some [2]) true (some [4]) true = .ok twoToFour
      ∧ twoToFour.contains ⟨[4], [5], [], [], Int64.maxValue, true⟩ = true
      ∧ twoToFour.contains ⟨[4, 0], [], [], [], Int64.maxValue, false⟩ = false
      ∧ (ofRow [4]).contains ⟨[4], [5], [], [], Int64.maxValue, true⟩ = true := by
  have hrows : ofRows? (some [2]) true (some [4]) true = .ok twoToFour :=
    ofKeys?_eq_ok_iff.mpr ⟨rfl, rfl, rfl, rfl⟩
  have hlast := contains_rows_iff hrows [4] [] [] ⟨[4], [5], [], [], Int64.maxValue, true⟩
  have hbehind := contains_rows_iff hrows [4] [] [] ⟨[4, 0], [], [], [], Int64.maxValue, false⟩
  refine ⟨hrows, hlast.2.2.mpr ?_, ?_, hlast.1.mpr ?_⟩
  · decide
  · rw [← Bool.not_eq_true, hbehind.2.2]
    decide
  · decide

/-- Each of these ranges leaves out the deletion marker right before its first live key, which is
of the row or column meant, and takes in the one right before its end, which is not. -/
theorem contains_shifted :
    ((ofRow [114]).contains ⟨[114], [], [], [], Int64.maxValue, true⟩ = false
        ∧ (ofRow [114]).contains ⟨[114, 0], [], [], [], Int64.maxValue, true⟩ = true)
      ∧ ((ofColumn [114] [102] [113]).contains
            ⟨[114], [102], [113], [], Int64.maxValue, true⟩ = false
        ∧ (ofColumn [114] [102] [113]).contains
            ⟨[114], [102], [113, 0], [], Int64.maxValue, true⟩ = true)
      ∧ ofRows? (some [2]) true (some [4]) true = .ok twoToFour
      ∧ twoToFour.contains ⟨[2], [], [], [], Int64.maxValue, true⟩ = false
      ∧ twoToFour.contains ⟨[4, 0], [], [], [], Int64.maxValue, true⟩ = true := by
  refine ⟨?_, ?_, ofKeys?_eq_ok_iff.mpr ⟨rfl, rfl, rfl, rfl⟩, ?_⟩ <;> decide

/-! ## The rows of a range -/

/-- A row lies before a range exactly if all its keys do. -/
theorem isBeforeRow_iff {row : Bytes} :
    r.isBeforeRow row = true ↔ ∀ k : Key, k.row = row → r.isBefore k = true := by
  rw [← not_iff_not, Bool.not_eq_true, isBeforeRow_eq_false_iff]
  constructor
  · intro hstart hall
    -- past whatever key the range starts with, the row has a key in the next family
    obtain ⟨s, hs, hk⟩ := isBefore_iff.mp (hall (Key.ofRow row) rfl)
    have hbehind : s < Key.ofFamily row s.family.successor := by
      rcases lt_or_eq_of_le (hstart s hs) with hlt | rfl
      · exact Key.lt_of_row_lt hlt
      · exact Key.lt_following (p := .family) Std.ReflCmp.isLE_rfl
    obtain ⟨s', hs', hk'⟩ := isBefore_iff.mp (hall (Key.ofFamily row s.family.successor) rfl)
    obtain rfl : s = s' := Option.some.inj (hs.symm.trans hs')
    have hle : Key.ofFamily row s.family.successor ≤ s := by
      split at hk'
      · exact le_of_lt hk'
      · exact hk'
    exact absurd hbehind (not_lt.mpr hle)
  · intro hsome s hs
    by_contra hlt
    refine hsome fun k hk => isBefore_iff.mpr ⟨s, hs, ?_⟩
    have hless : k < s := Key.lt_of_row_lt (hk ▸ not_le.mp hlt)
    split
    · exact hless
    · exact le_of_lt hless

/-- A row lies after a range exactly if all its live keys do. -/
theorem isAfterRow_iff {row : Bytes} :
    r.isAfterRow row = true
      ↔ ∀ k : Key, k.row = row → k.deleted = false → r.isAfter k = true := by
  constructor
  · rintro h k rfl hlive
    exact isAfter_of_le h (Key.first_le (p := .row) (Or.inl hlive))
  · intro hall
    exact hall (Key.ofRow row) rfl rfl

/-- Clipping a range by rows loses no live key: a row lies before the range exactly if all its
keys do, deletion markers included, and after it exactly if all its live keys do. So a row that
holds a live key of the range is among the range's rows, and an empty range holds no key. -/
theorem clips_rows (r : Range) (row : Bytes) :
    (r.isBeforeRow row = true ↔ ∀ k : Key, k.row = row → r.isBefore k = true)
      ∧ (r.isAfterRow row = true
        ↔ ∀ k : Key, k.row = row → k.deleted = false → r.isAfter k = true)
      ∧ ((∃ k : Key, k.row = row ∧ k.deleted = false ∧ r.contains k = true) →
          r.containsRow row = true)
      ∧ (r.isEmpty = true → ∀ k, r.contains k = false) := by
  refine ⟨isBeforeRow_iff, isAfterRow_iff, ?_, not_contains_of_isEmpty⟩
  rintro ⟨k, hrow, hlive, hk⟩
  have hnot := hk
  rw [contains, Bool.and_eq_true, Bool.not_eq_true', Bool.not_eq_true'] at hnot
  obtain ⟨hbefore, hafter⟩ := hnot
  rw [containsRow_iff]
  refine ⟨?_, ?_, ?_⟩
  · refine Bool.eq_false_of_not_eq_true fun hempty => ?_
    rw [not_contains_of_isEmpty hempty] at hk
    exact Bool.noConfusion hk
  · refine Bool.eq_false_of_not_eq_true fun hall => ?_
    rw [isBeforeRow_iff.mp hall k hrow] at hbefore
    exact Bool.noConfusion hbefore
  · refine Bool.eq_false_of_not_eq_true fun hall => ?_
    rw [isAfterRow_iff.mp hall k hrow hlive] at hafter
    exact Bool.noConfusion hafter

/-- The keys from inside row `[2]` to inside row `[4]`. -/
def insideTwoToFour : Range :=
  ⟨some ⟨[2], [5], [], [], 3, true⟩, false, some ⟨[4], [5], [], [], 3, true⟩, true, by
    rintro s ⟨⟩ e ⟨⟩
    decide⟩

/-- From one key to the same, which is left out. -/
def nowhere : Range :=
  ⟨some (Key.ofRow [2]), true, some (Key.ofRow [2]), false, by
    rintro s ⟨⟩ e ⟨⟩
    decide⟩

/-- A range that ends inside a row still has that row. -/
theorem clips_rows_insideTwoToFour :
    insideTwoToFour.containsRow [4] = true
      ∧ insideTwoToFour.isBefore ⟨[1], [9], [], [], 0, true⟩ = true
      ∧ insideTwoToFour.isAfter ⟨[5], [], [], [], 0, false⟩ = true
      ∧ nowhere.contains (Key.ofRow [2]) = false := by
  refine ⟨(clips_rows insideTwoToFour [4]).2.2.1 ⟨⟨[4], [], [], [], 0, false⟩, rfl, rfl, ?_⟩,
    (clips_rows insideTwoToFour [1]).1.mp ?_ _ rfl,
    (clips_rows insideTwoToFour [5]).2.1.mp ?_ _ rfl rfl,
    (clips_rows nowhere [2]).2.2.2 ?_ _⟩ <;> decide

end Range

end CellScan
