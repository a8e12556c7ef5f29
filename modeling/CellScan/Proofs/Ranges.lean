/-
`Ranges.lean` -- where keys and rows lie with respect to a range, in key order.

What lies before a range is closed downwards and what lies after it upwards, for
keys and for rows alike; this is all that sorted sources and the search for
documents need to know of the four kinds of ends.
-/
import CellScan.Proofs.Order

set_option autoImplicit false

namespace CellScan.Range

open scoped Linear

/-- Two ends make the one range that has them, unless they are inverted. -/
theorem ofKeys?_eq_ok_iff {start stop : Option Key} {startInclusive stopInclusive : Bool}
    {r : Range} :
    ofKeys? start startInclusive stop stopInclusive = .ok r
      ↔ r.start = start ∧ r.startInclusive = startInclusive ∧ r.stop = stop
        ∧ r.stopInclusive = stopInclusive := by
  obtain ⟨s, si, e, ei, hordered⟩ := r
  rcases start with _ | start <;> rcases stop with _ | stop
  · simp [ofKeys?, eq_comm]
  · simp [ofKeys?, eq_comm]
  · simp [ofKeys?, eq_comm]
  · by_cases hle : start ≤ stop
    · simp [ofKeys?, hle, eq_comm]
    · -- inverted ends are refused, and no range has them
      refine iff_of_false (by simp [ofKeys?, hle]) ?_
      rintro ⟨rfl, -, rfl, -⟩
      exact hle (hordered _ rfl _ rfl)

theorem isBefore_iff {r : Range} {k : Key} :
    r.isBefore k = true
      ↔ ∃ s, r.start = some s ∧ (if r.startInclusive then k < s else k ≤ s) := by
  obtain ⟨start, si, stop, ei, ord⟩ := r
  cases start with
  | none => simp [isBefore]
  | some s =>
      cases si
      · simp [isBefore]
        exact Iff.rfl
      · simp only [isBefore, if_true, Option.some.injEq, exists_eq_left', Key.lt_iff_compare]
        cases compare k s <;> decide

theorem isAfter_iff {r : Range} {k : Key} :
    r.isAfter k = true
      ↔ ∃ e, r.stop = some e ∧ (if r.stopInclusive then e < k else e ≤ k) := by
  obtain ⟨start, si, stop, ei, ord⟩ := r
  cases stop with
  | none => simp [isAfter]
  | some e =>
      cases ei
      · simp only [isAfter, Bool.false_eq_true, if_false, Option.some.injEq, exists_eq_left']
        exact Std.OrientedCmp.isGE_iff_isLE
      · simp only [isAfter, if_true, Option.some.injEq, exists_eq_left', Key.lt_iff_compare]
        rw [← Std.OrientedCmp.gt_iff_lt]
        cases compare k e <;> decide

/-- The keys in a range are those that neither end leaves out. -/
theorem contains_iff {r : Range} {k : Key} :
    r.contains k = true
      ↔ (∀ s ∈ r.start, if r.startInclusive then s ≤ k else s < k)
        ∧ ∀ e ∈ r.stop, if r.stopInclusive then k ≤ e else k < e := by
  rw [contains, Bool.and_eq_true, Bool.not_eq_true', Bool.not_eq_true', ← Bool.not_eq_true,
    ← Bool.not_eq_true, isBefore_iff, isAfter_iff]
  refine and_congr ?_ ?_
  · cases r.startInclusive <;> simp
  · cases r.stopInclusive <;> simp

/-- What lies before a range is closed downwards. -/
theorem isBefore_of_le {r : Range} {k k' : Key} (h : r.isBefore k' = true) (hle : k ≤ k') :
    r.isBefore k = true := by
  obtain ⟨s, hs, hk⟩ := isBefore_iff.mp h
  refine isBefore_iff.mpr ⟨s, hs, ?_⟩
  split
  · next hi =>
      rw [if_pos hi] at hk
      exact lt_of_le_of_lt hle hk
  · next hi =>
      rw [if_neg hi] at hk
      exact le_trans hle hk

/-- What lies after a range is closed upwards. -/
theorem isAfter_of_le {r : Range} {k k' : Key} (h : r.isAfter k = true) (hle : k ≤ k') :
    r.isAfter k' = true := by
  obtain ⟨e, he, hk⟩ := isAfter_iff.mp h
  refine isAfter_iff.mpr ⟨e, he, ?_⟩
  split
  · next hi =>
      rw [if_pos hi] at hk
      exact lt_of_lt_of_le hk hle
  · next hi =>
      rw [if_neg hi] at hk
      exact le_trans hk hle

theorem isAfterRow_of_le {r : Range} {row row' : Bytes} (h : r.isAfterRow row = true)
    (hle : row ≤ row') : r.isAfterRow row' = true := by
  refine isAfter_of_le h ?_
  rcases lt_or_eq_of_le hle with hlt | rfl
  · exact le_of_lt (Key.lt_of_row_lt hlt)
  · exact le_refl _

/-- A range starts no later than with a row if its start key lies in that row or an earlier
one. -/
theorem isBeforeRow_eq_false_iff {r : Range} {row : Bytes} :
    r.isBeforeRow row = false ↔ ∀ s, r.start = some s → s.row ≤ row := by
  rw [isBeforeRow]
  rcases r.start with _ | s
  · exact iff_of_true rfl fun s hs => absurd hs (by simp)
  · rw [← Bool.not_eq_true]
    simp only [Option.some.injEq, forall_eq']
    rw [← not_lt, ← Std.compare_eq_lt]
    cases compare row s.row <;> decide

theorem containsRow_iff {r : Range} {row : Bytes} :
    r.containsRow row = true
      ↔ r.isEmpty = false ∧ r.isBeforeRow row = false ∧ r.isAfterRow row = false := by
  rw [containsRow, Bool.and_eq_true, Bool.and_eq_true, Bool.not_eq_true', Bool.not_eq_true',
    Bool.not_eq_true', and_assoc]

/-- The keys from a key on. -/
theorem contains_startingAt {s k : Key} : (startingAt s).contains k = true ↔ s ≤ k := by
  rw [contains_iff]
  simp [startingAt]

end CellScan.Range
