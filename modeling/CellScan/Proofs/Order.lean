/-
`Order.lean` -- byte strings, keys and documents as linear orders.

The definitions compare with `compare`; the arguments below are about `≤` and `<`.
This file is the bridge: each of the three is a linear order whose `≤` says that
`compare` does not come to `gt`, so that the order lemmas of the library and the
`order` tactic apply. The instances are scoped to `CellScan.Linear`.

The one fact about byte strings that everything on postings rests on is
`Bytes.beginning_or_before`: what lies before another byte string either is a
beginning of it, or stays before it whatever is put behind the two.
-/
import CellScan.Query
import Mathlib.Order.Std
import Mathlib.Tactic.Order

set_option autoImplicit false

namespace CellScan

/-! ## The instances -/

/-- Byte strings are compared as they are ordered. -/
theorem Bytes.isLE_compare_iff (a b : Bytes) : (compare a b).isLE = true ↔ a ≤ b := by
  induction a generalizing b with
  | nil => cases b <;> simp [List.compare_nil_cons]
  | cons x a ih =>
      cases b with
      | nil => simp [List.compare_cons_nil]
      | cons y b =>
          rw [List.compare_cons_cons, List.cons_le_cons_iff, ← ih b]
          -- the first bytes decide unless they are the same
          rcases hxy : compare x y with _ | _ | _
          · have hlt : x < y := by rw [← Std.compare_eq_lt]; exact hxy
            simp [hlt]
          · have heq : x = y := Std.LawfulEqOrd.eq_of_compare hxy
            simp [heq]
          · have hgt : y < x := by rw [← Std.compare_eq_gt]; exact hxy
            have hnlt : ¬ x < y := UInt8.not_lt.mpr (UInt8.le_of_lt hgt)
            have hne : x ≠ y := (UInt8.ne_of_lt hgt).symm
            simp [hnlt, hne]

/-- By row, then by identity. -/
instance : Ord Document := ⟨compareLex (compareOn Document.row) (compareOn Document.id)⟩

instance : LT Document := ltOfOrd

instance : LE Document := leOfOrd

instance : Std.TransOrd Document := inferInstanceAs (Std.TransCmp (compareLex _ _))

namespace Linear

scoped instance : Std.LawfulOrderOrd Bytes where
  isLE_compare := Bytes.isLE_compare_iff
  isGE_compare a b := by rw [Std.OrientedCmp.isGE_iff_isLE]; exact Bytes.isLE_compare_iff b a

scoped instance : LinearOrder Bytes := .ofStd Bytes

/-- What `ltOfOrd` and `leOfOrd` give is lawful. -/
theorem lt_iff_of_ord {α : Type} [Ord α] [Std.OrientedOrd α] (a b : α) :
    compare a b = .lt ↔ (compare a b).isLE = true ∧ ¬ (compare b a).isLE = true := by
  constructor
  · intro h
    exact ⟨by rw [h]; rfl, Std.OrientedCmp.not_isLE_of_lt h⟩
  · rintro ⟨-, h⟩
    exact Std.OrientedCmp.lt_of_not_isLE h

scoped instance : Std.LawfulOrderOrd Key where
  isLE_compare _ _ := Iff.rfl
  isGE_compare _ _ := Std.OrientedCmp.isGE_iff_isLE

scoped instance : Std.LawfulOrderLT Key := ⟨lt_iff_of_ord⟩

scoped instance : LinearOrder Key := .ofStd Key

scoped instance : Std.LawfulEqOrd Document where
  compare_self := fun {d} => by
    show (compare d.row d.row).then (compare d.id d.id) = .eq
    rw [Std.ReflOrd.compare_self, Std.ReflOrd.compare_self]
    rfl
  eq_of_compare := by
    intro a b h
    have hboth : compare a.row b.row = .eq ∧ compare a.id b.id = .eq := Ordering.then_eq_eq.mp h
    cases a
    cases b
    rw [Document.mk.injEq]
    exact ⟨Std.LawfulEqOrd.eq_of_compare hboth.1, Std.LawfulEqOrd.eq_of_compare hboth.2⟩

scoped instance : Std.LawfulOrderOrd Document where
  isLE_compare _ _ := Iff.rfl
  isGE_compare _ _ := Std.OrientedCmp.isGE_iff_isLE

scoped instance : Std.LawfulOrderLT Document := ⟨lt_iff_of_ord⟩

scoped instance : LinearOrder Document := .ofStd Document

end Linear

open scoped Linear

/-! ## Byte strings -/

namespace Bytes

/-- A beginning does not lie after its extensions. -/
theorem le_append (a r : Bytes) : a ≤ a ++ r := by
  cases r with
  | nil => rw [List.append_nil]
  | cons x r => exact le_of_lt (Std.compare_eq_lt.mp (compare_append_cons a x r))

/-- A proper beginning lies before its extensions. -/
theorem lt_append_cons (a : Bytes) (x : UInt8) (r : Bytes) : a < a ++ x :: r :=
  Std.compare_eq_lt.mp (compare_append_cons a x r)

theorem lt_successor (a : Bytes) : a < a.successor := lt_append_cons a 0 []

/-- What lies before another byte string either is a beginning of it, or differs
from it at a byte, and then what is put behind the two does not matter. -/
theorem beginning_or_before {a b : Bytes} (h : a < b) :
    (∃ x r, b = a ++ x :: r) ∨ ∀ u v, a ++ u < b ++ v := by
  induction a generalizing b with
  | nil =>
      cases b with
      | nil => exact absurd h (lt_irrefl _)
      | cons y b => exact Or.inl ⟨y, b, rfl⟩
  | cons x a ih =>
      cases b with
      | nil => exact absurd h (List.not_lt_nil _)
      | cons y b =>
          rcases List.cons_lt_cons_iff.mp h with hxy | ⟨rfl, hab⟩
          · exact Or.inr fun u v => List.cons_lt_cons_iff.mpr (Or.inl hxy)
          · rcases ih hab with ⟨z, r, rfl⟩ | hall
            · exact Or.inl ⟨z, r, rfl⟩
            · exact Or.inr fun u v => List.cons_lt_cons_iff.mpr (Or.inr ⟨rfl, hall u v⟩)

/-- No byte string lies between another one and its successor. -/
theorem successor_le_iff {a b : Bytes} : a.successor ≤ b ↔ a < b := by
  constructor
  · intro h
    exact lt_of_lt_of_le (lt_successor a) h
  · intro h
    rcases beginning_or_before h with ⟨x, r, rfl⟩ | hall
    · rw [successor]
      apply List.append_left_le
      -- nothing lies before a zero byte put behind
      by_cases hx : x = 0
      · rw [hx]
        exact le_append [0] r
      · exact le_of_lt (List.cons_lt_cons_iff.mpr (Or.inl (UInt8.pos_iff_ne_zero.mpr hx)))
    · have hlt := hall [0] []
      rw [List.append_nil] at hlt
      exact le_of_lt hlt

/-- A common beginning does not matter. -/
theorem append_lt_append_iff {p a b : Bytes} : p ++ a < p ++ b ↔ a < b := by
  constructor
  · intro h
    by_contra hba
    exact absurd h (not_lt.mpr (List.append_left_le (not_lt.mp hba)))
  · intro h
    exact List.append_left_lt h

theorem append_le_append_iff {p a b : Bytes} : p ++ a ≤ p ++ b ↔ a ≤ b := by
  rw [← not_lt, ← not_lt, append_lt_append_iff]

end Bytes

/-! ## Keys

A live key with the empty label and the latest timestamp is what the bounds of
ranges and of postings are made of: `Key.ofColumn`. Only one key of its column lies
before it, the deletion marker with that label and that timestamp. -/

namespace Key

theorem lt_iff_compare {a b : Key} : a < b ↔ compare a b = .lt := Iff.rfl

/-- The deletion marker that lies before the first live key of its column. -/
def isForemost (k : Key) : Bool :=
  k.deleted && k.visibility.isEmpty && decide (k.timestamp = Int64.maxValue)

/-- A comparison decided by the column is decided for the keys. -/
theorem lt_of_byQualifier {a b : Key} (h : byQualifier a b = .lt) : a < b := by
  rw [lt_iff_compare, compare_eq, byDeletion_eq, byTimestamp_eq, byVisibility_eq, h]
  rfl

theorem lt_of_row_lt {a b : Key} (h : a.row < b.row) : a < b := by
  apply lt_of_byQualifier
  rw [byQualifier_eq, byFamily_eq, byRow_eq, Std.compare_eq_lt.mpr h]
  rfl

theorem lt_of_family_lt {a b : Key} (hr : a.row = b.row) (h : a.family < b.family) : a < b := by
  apply lt_of_byQualifier
  rw [byQualifier_eq, byFamily_eq, byRow_eq, hr, Std.ReflOrd.compare_self,
    Std.compare_eq_lt.mpr h]
  rfl

theorem lt_of_qualifier_lt {a b : Key} (hr : a.row = b.row) (hf : a.family = b.family)
    (h : a.qualifier < b.qualifier) : a < b := by
  apply lt_of_byQualifier
  rw [byQualifier_eq, byFamily_eq, byRow_eq, hr, hf, Std.ReflOrd.compare_self,
    Std.ReflOrd.compare_self, Std.compare_eq_lt.mpr h]
  rfl

theorem row_le_of_le {a b : Key} (h : a ≤ b) : a.row ≤ b.row := by
  by_contra hn
  exact absurd (lt_of_row_lt (not_le.mp hn)) (not_lt.mpr h)

theorem family_le_of_le {a b : Key} (h : a ≤ b) (hr : a.row = b.row) : a.family ≤ b.family := by
  by_contra hn
  exact absurd (lt_of_family_lt hr.symm (not_le.mp hn)) (not_lt.mpr h)

theorem qualifier_le_of_le {a b : Key} (h : a ≤ b) (hr : a.row = b.row)
    (hf : a.family = b.family) : a.qualifier ≤ b.qualifier := by
  by_contra hn
  exact absurd (lt_of_qualifier_lt hr.symm hf.symm (not_le.mp hn)) (not_lt.mpr h)

/-- First live keys are ordered like their columns. -/
theorem ofColumn_le_ofColumn {r r' f f' q q' : Bytes}
    (h : r < r' ∨ (r = r' ∧ (f < f' ∨ (f = f' ∧ q ≤ q')))) :
    ofColumn r f q ≤ ofColumn r' f' q' := by
  rcases h with h | ⟨rfl, h | ⟨rfl, h⟩⟩
  · exact le_of_lt (lt_of_row_lt h)
  · exact le_of_lt (lt_of_family_lt rfl h)
  · rcases lt_or_eq_of_le h with h | rfl
    · exact le_of_lt (lt_of_qualifier_lt rfl rfl h)
    · exact le_refl _

end Key

/-! ## Documents -/

namespace Document

theorem lt_iff {a b : Document} : a < b ↔ a.row < b.row ∨ (a.row = b.row ∧ a.id < b.id) := by
  show (compare a.row b.row).then (compare a.id b.id) = .lt ↔ _
  rw [Ordering.then_eq_lt, Std.compare_eq_lt, Std.compare_eq_lt,
    Std.LawfulEqOrd.compare_eq_iff_eq]

theorem le_iff {a b : Document} : a ≤ b ↔ a.row < b.row ∨ (a.row = b.row ∧ a.id ≤ b.id) := by
  rw [← not_lt, lt_iff]
  constructor
  · intro h
    rcases lt_trichotomy a.row b.row with hr | hr | hr
    · exact Or.inl hr
    · exact Or.inr ⟨hr, not_lt.mp fun hi => h (Or.inr ⟨hr.symm, hi⟩)⟩
    · exact absurd (Or.inl hr) h
  · rintro (hr | ⟨hr, hi⟩) (hr' | ⟨hr', hi'⟩)
    · exact absurd hr (not_lt.mpr (le_of_lt hr'))
    · rw [hr'] at hr
      exact absurd hr (lt_irrefl _)
    · rw [hr] at hr'
      exact absurd hr' (lt_irrefl _)
    · exact absurd hi' (not_lt.mpr hi)

end Document

namespace Target

/-- What a target admits: the documents of later rows, and in its own row those
from the identity on that it names. -/
theorem admits_iff {t : Target} {d : Document} :
    t.admits d = true ↔ t.row < d.row ∨ (t.row = d.row ∧ ∀ id ∈ t.id, id ≤ d.id) := by
  have hid : (t.id.all fun id => (compare id d.id).isLE) = true ↔ ∀ id ∈ t.id, id ≤ d.id := by
    rw [Option.all_eq_true]
    exact forall₂_congr fun id _ => Bytes.isLE_compare_iff id d.id
  rw [admits]
  -- an earlier row, the row of the target, or a later one
  rcases h : compare d.row t.row with _ | _ | _
  · have hlt : d.row < t.row := Std.compare_eq_lt.mp h
    have hne : ¬ t.row = d.row := fun he => absurd hlt (he ▸ lt_irrefl _)
    simp [not_lt.mpr (le_of_lt hlt), hne]
  · have heq : d.row = t.row := Std.LawfulEqOrd.eq_of_compare h
    simp [heq, hid]
  · have hgt : t.row < d.row := Std.compare_eq_gt.mp h
    simp [hgt]

@[simp] theorem admits_ofDocument (d e : Document) :
    (ofDocument d).admits e = true ↔ d ≤ e := by
  rw [admits_iff, Document.le_iff]
  simp [ofDocument]

@[simp] theorem admits_afterDocument (d e : Document) :
    (afterDocument d).admits e = true ↔ d < e := by
  rw [admits_iff, Document.lt_iff]
  simp [afterDocument, Bytes.successor_le_iff]

/-- With a document a target admits those after it. -/
theorem admits_of_le {t : Target} {d e : Document} (h : t.admits d = true) (hle : d ≤ e) :
    t.admits e = true := by
  rw [admits_iff] at h ⊢
  rw [Document.le_iff] at hle
  rcases h with h | ⟨h, hid⟩ <;> rcases hle with hr | ⟨hr, hi⟩
  · exact Or.inl (lt_trans h hr)
  · exact Or.inl (hr ▸ h)
  · exact Or.inl (h ▸ hr)
  · exact Or.inr ⟨h.trans hr, fun id hm => le_trans (hid id hm) hi⟩

/-- What lies from a document on lies from every target on that admits it. -/
theorem admits_of_ofDocument {t : Target} {d e : Document} (h : t.admits d = true)
    (he : (ofDocument d).admits e = true) : t.admits e = true :=
  admits_of_le h ((admits_ofDocument d e).mp he)

/-- What lies behind a document lies from the document on. -/
theorem admits_of_afterDocument {d e : Document} (he : (afterDocument d).admits e = true) :
    (ofDocument d).admits e = true := by
  rw [admits_afterDocument] at he
  rw [admits_ofDocument]
  exact le_of_lt he

/-- The document that a target names is admitted, and nothing before it is. -/
theorem document?_eq_some_iff {t : Target} {d : Document} :
    t.document? = some d ↔ t = ofDocument d := by
  obtain ⟨row, id⟩ := t
  cases id <;> cases d <;> simp [document?, ofDocument]

end Target

end CellScan
