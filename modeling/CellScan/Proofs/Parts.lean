/-
`Parts.lean` -- key order, one component after the other.

Two keys are compared from the row on, and the first component in which they differ decides.
A comparison up to a part stops earlier, so it ties keys that a longer one tells apart, and
that is all it does: whatever it answers that is no tie, every longer comparison repeats
(`compareUpTo_of_le`).

From this the order of whole keys inherits what bounds rest on. The keys that agree up to a
part lie side by side (`tie_between`), and a key none of whose components lies behind
another's does not lie behind it (`le_of_components`).
-/
import CellScan.Proofs.Order

set_option autoImplicit false

namespace CellScan.Key

open scoped Linear

variable {a b c : Key} {p q : Part}

/-! ## Longer parts -/

namespace Part

/-- How many components a comparison up to the part looks at. -/
def components : Part → Nat
  | .row => 1
  | .family => 2
  | .qualifier => 3
  | .visibility => 4
  | .timestamp => 5
  | .deletion => 6

/-- The part with one component more; nothing is longer than the whole key. -/
def next : Part → Part
  | .row => .family
  | .family => .qualifier
  | .qualifier => .visibility
  | .visibility => .timestamp
  | .timestamp => .deletion
  | .deletion => .deletion

theorem components_le (p : Part) : p.components ≤ Part.deletion.components := by
  cases p <;> decide

/-- A longer part is reached by adding components one at a time. -/
theorem exists_iterate_next (h : p.components ≤ q.components) : ∃ n, next^[n] p = q := by
  refine ⟨q.components - p.components, ?_⟩
  cases p <;> cases q <;> first | rfl | exact absurd h (by decide)

end Part

theorem then_of_ne {o o' : Ordering} (h : o ≠ .eq) : o.then o' = o := by
  cases o with
  | lt => rfl
  | eq => exact absurd rfl h
  | gt => rfl

/-- One component more does not change an answer that is no tie. -/
theorem compareUpTo_next (h : compareUpTo p a b ≠ .eq) :
    compareUpTo p.next a b = compareUpTo p a b := by
  cases p with
  | row => exact then_of_ne h
  | family => exact then_of_ne h
  | qualifier => exact then_of_ne h
  | visibility => exact then_of_ne h
  | timestamp => exact then_of_ne h
  | deletion => rfl

/-- Every longer comparison repeats an answer that is no tie. -/
theorem compareUpTo_of_le (hle : p.components ≤ q.components) (h : compareUpTo p a b ≠ .eq) :
    compareUpTo q a b = compareUpTo p a b := by
  obtain ⟨n, rfl⟩ := Part.exists_iterate_next hle
  clear hle
  induction n with
  | zero => rfl
  | succ n ih =>
      have hne : compareUpTo (Part.next^[n] p) a b ≠ .eq := by rwa [ih]
      rw [Function.iterate_succ_apply', compareUpTo_next hne, ih]

/-- So does the comparison of whole keys. -/
theorem compare_of_compareUpTo (h : compareUpTo p a b ≠ .eq) : compare a b = compareUpTo p a b :=
  compareUpTo_of_le (q := .deletion) p.components_le h

theorem lt_of_compareUpTo (h : compareUpTo p a b = .lt) : a < b := by
  rw [lt_iff_compare, compare_of_compareUpTo (p := p) (by rw [h]; decide), h]

/-! ## Order up to ties -/

instance (p : Part) : Std.TransCmp (compareUpTo p) :=
  match p with
  | .row => inferInstanceAs (Std.TransCmp byRow)
  | .family => inferInstanceAs (Std.TransCmp byFamily)
  | .qualifier => inferInstanceAs (Std.TransCmp byQualifier)
  | .visibility => inferInstanceAs (Std.TransCmp byVisibility)
  | .timestamp => inferInstanceAs (Std.TransCmp byTimestamp)
  | .deletion => inferInstanceAs (Std.TransCmp byDeletion)

/-- No comparison up to a part puts keys the other way round. -/
theorem isLE_compareUpTo (h : a ≤ b) (p : Part) : (compareUpTo p a b).isLE = true := by
  by_cases htie : compareUpTo p a b = .eq
  · rw [htie]
    rfl
  · rw [← compare_of_compareUpTo htie]
    exact h

/-- What lies between two keys that agree up to a part agrees with them. -/
theorem tie_between (hab : a ≤ b) (hbc : b ≤ c) (h : compareUpTo p a c = .eq) :
    compareUpTo p a b = .eq := by
  have hca : (compareUpTo p c a).isLE = true := by
    rw [Std.OrientedCmp.eq_comm.mp h]
    rfl
  have hba : (compareUpTo p b a).isLE = true :=
    Std.TransCmp.isLE_trans (isLE_compareUpTo hbc p) hca
  exact Std.OrientedCmp.isLE_antisymm (isLE_compareUpTo hab p) hba

/-! ## Components -/

/-- A key does not lie behind another if none of its components does. Time runs backwards,
and a deletion marker comes first. -/
theorem le_of_components (hrow : a.row ≤ b.row) (hfamily : a.family ≤ b.family)
    (hqualifier : a.qualifier ≤ b.qualifier) (hvisibility : a.visibility ≤ b.visibility)
    (htimestamp : b.timestamp ≤ a.timestamp) (hdeleted : b.deleted ≤ a.deleted) : a ≤ b := by
  show (compare a b).isLE = true
  rw [compare_eq, byDeletion_eq, byTimestamp_eq, byVisibility_eq, byQualifier_eq, byFamily_eq,
    byRow_eq]
  have hbytes := fun {u v : Bytes} => (Bytes.isLE_compare_iff u v).mpr
  have htime : (compare b.timestamp a.timestamp).isLE = true := Std.isLE_compare.mpr htimestamp
  have hmarker : (compare b.deleted a.deleted).isLE = true := by
    revert hdeleted
    cases a.deleted <;> cases b.deleted <;> decide
  simp only [Ordering.isLE_then_iff_and]
  exact ⟨⟨⟨⟨⟨hbytes hrow, .inr (hbytes hfamily)⟩, .inr (hbytes hqualifier)⟩,
    .inr (hbytes hvisibility)⟩, .inr htime⟩, .inr hmarker⟩

/-- Keys tie exactly if they are the same in every component. -/
theorem compare_eq_eq_iff : compare a b = .eq
    ↔ a.row = b.row ∧ a.family = b.family ∧ a.qualifier = b.qualifier
      ∧ a.visibility = b.visibility ∧ a.timestamp = b.timestamp ∧ a.deleted = b.deleted := by
  rw [Std.LawfulEqOrd.compare_eq_iff_eq]
  constructor
  · rintro rfl
    exact ⟨rfl, rfl, rfl, rfl, rfl, rfl⟩
  · rintro ⟨hrow, hfamily, hqualifier, hvisibility, htimestamp, hdeleted⟩
    cases a
    cases b
    rw [Key.mk.injEq]
    exact ⟨hrow, hfamily, hqualifier, hvisibility, htimestamp, hdeleted⟩

/-! ## The order and its parts -/

/-- Keys are totally ordered, and two tie only if they are the same in all six components.
The comparison up to a part orders them up to ties; what it answers that is no tie, every
longer one and the order of whole keys repeat; and the keys that agree up to a part lie side
by side. -/
theorem ordered_by_parts (a b c : Key) :
    (compare b a = (compare a b).swap ∧ (a ≤ b → b ≤ a → a = b) ∧ (a ≤ b → b ≤ c → a ≤ c)
        ∧ (a ≤ b ∨ b ≤ a))
      ∧ (compare a b = .eq ↔ a.row = b.row ∧ a.family = b.family ∧ a.qualifier = b.qualifier
          ∧ a.visibility = b.visibility ∧ a.timestamp = b.timestamp ∧ a.deleted = b.deleted)
      ∧ (∀ p, compareUpTo p a a = .eq ∧ compareUpTo p b a = (compareUpTo p a b).swap
          ∧ ((compareUpTo p a b).isLE = true → (compareUpTo p b c).isLE = true →
              (compareUpTo p a c).isLE = true))
      ∧ (∀ p q, p.components ≤ q.components → compareUpTo p a b ≠ .eq →
          compareUpTo q a b = compareUpTo p a b ∧ compare a b = compareUpTo p a b)
      ∧ ∀ p, a ≤ b → b ≤ c → agreesUpTo p a c = true → agreesUpTo p a b = true := by
  refine ⟨⟨?_, ?_, ?_, ?_⟩, compare_eq_eq_iff, ?_, ?_, ?_⟩
  · exact Std.OrientedCmp.eq_swap
  · exact le_antisymm
  · exact le_trans
  · exact le_total a b
  · intro p
    exact ⟨Std.ReflCmp.compare_self, Std.OrientedCmp.eq_swap, Std.TransCmp.isLE_trans⟩
  · intro p q hle hne
    exact ⟨compareUpTo_of_le hle hne, compare_of_compareUpTo hne⟩
  · intro p hab hbc h
    rw [agreesUpTo, beq_iff_eq] at h ⊢
    exact tie_between hab hbc h

/-- The cells of one column, the later ones first. -/
def atTime (t : Int64) : Key := ⟨[1], [2], [3], [], t, false⟩

/-- What lies between two cells of a column is of that column. -/
theorem ordered_by_parts_column :
    agreesUpTo .qualifier (atTime 9) ⟨[1], [2], [3], [], 7, true⟩ = true
      ∧ compareUpTo .deletion (atTime 9) (atTime 5) = compareUpTo .timestamp (atTime 9) (atTime 5) := by
  refine ⟨(ordered_by_parts (atTime 9) ⟨[1], [2], [3], [], 7, true⟩ (atTime 5)).2.2.2.2 .qualifier
    ?_ ?_ ?_, ((ordered_by_parts (atTime 9) (atTime 5) (atTime 5)).2.2.2.1 .timestamp .deletion
    ?_ ?_).1⟩ <;> decide

end CellScan.Key
