/-
`Following.lean` -- the key behind all keys that agree up to a part.

The following key of `k` up to a part takes the next value of the last component compared
and starts afresh behind it. So a key lies before it, in the components compared, exactly if
it does not lie behind `k` in them (`compareUpTo_following`): between a byte string and its
successor, or between one tick and the next, there is nothing. What ties with it there has
still to be compared in the components behind; the following key is the first live key
(`first`) of all that tie with it, and only deletion markers come before that.

Two parts are not like this. The time is the one component that can run out, and then it is
the label that takes its next value. And the whole key leaves nothing to start afresh: there
the following key is the very next one, deletion markers included.
-/
import CellScan.Proofs.Parts
import Mathlib.Order.Cover

set_option autoImplicit false

namespace CellScan

open scoped Linear

/-! ## Next values -/

/-- What does not lie behind a byte string lies before its successor. -/
theorem Bytes.compare_successor_eq_lt_iff {a b : Bytes} :
    compare a b.successor = .lt ↔ (compare a b).isLE = true := by
  rw [Std.compare_eq_lt, Bytes.isLE_compare_iff, ← not_le, Bytes.successor_le_iff, not_lt]

namespace Key

/-- The difference of two times, if that is a time. -/
def difference? (s t : Int64) : Option Int64 :=
  if h : Int64.minValue.toInt ≤ s.toInt - t.toInt ∧ s.toInt - t.toInt ≤ Int64.maxValue.toInt then
    some (.ofIntLE (s.toInt - t.toInt) h.1 h.2)
  else none

/-- Every time but the earliest has one a tick earlier. -/
theorem difference?_one {t : Int64} (h : t ≠ Int64.minValue) :
    difference? t 1 = some (t - 1) ∧ (t - 1).toInt = t.toInt - 1 := by
  have hleast : Int64.minValue.toInt ≤ t.toInt := t.minValue_le_toInt
  have hmost : t.toInt ≤ Int64.maxValue.toInt := t.toInt_le
  have hne : t.toInt ≠ Int64.minValue.toInt := fun he => h (Int64.toInt_inj.mp he)
  have hone : (1 : Int64).toInt = 1 := rfl
  have hfits : Int64.minValue.toInt ≤ t.toInt - (1 : Int64).toInt
      ∧ t.toInt - (1 : Int64).toInt ≤ Int64.maxValue.toInt := by omega
  have hsub : Int64.ofIntLE (t.toInt - (1 : Int64).toInt) hfits.1 hfits.2 = t - 1 := by
    rw [Int64.ofIntLE_sub, Int64.ofInt_toInt, Int64.ofInt_toInt]
  refine ⟨?_, ?_⟩
  · rw [difference?, dif_pos hfits, hsub]
  · rw [← hsub, Int64.toInt_ofIntLE, hone]

theorem sub_one_lt_iff {s t : Int64} (h : t ≠ Int64.minValue) : t - 1 < s ↔ t ≤ s := by
  rw [Int64.lt_iff_toInt_lt, Int64.le_iff_toInt_le, (difference?_one h).2]
  omega

variable {k x f : Key} {p : Part}

/-! ## In the components compared -/

/-- Where the last component takes its next value, coming before it is not coming behind the
value itself, whatever the components before say. -/
theorem then_eq_lt_iff {o o₁ o₂ : Ordering} (h : o₁ = .lt ↔ o₂.isLE = true) :
    o.then o₁ = .lt ↔ (o.then o₂).isLE = true := by
  cases o with
  | lt => exact iff_of_true rfl rfl
  | eq => exact h
  | gt =>
      rw [Ordering.gt_then, Ordering.gt_then]
      decide

/-- A last component that never puts a key before another does not help it there. -/
theorem then_eq_lt_of_ne {o o' : Ordering} (h : o' ≠ .lt) : o.then o' = .lt ↔ o = .lt := by
  rw [Ordering.then_eq_lt, or_iff_left fun hlt => h hlt.2]

/-- A last component that never puts a key behind another does not keep it there. -/
theorem isLE_then_of_isLE {o o' : Ordering} (h : o'.isLE = true) :
    (o.then o').isLE = true ↔ o.isLE = true := by
  rw [Ordering.isLE_then_iff_and, and_iff_left (Or.inr h)]

theorem byVisibility_afterVisibility :
    byVisibility x k.afterVisibility = .lt ↔ (byVisibility x k).isLE = true :=
  then_eq_lt_iff Bytes.compare_successor_eq_lt_iff

theorem byTimestamp_afterTimestamp :
    byTimestamp x k.afterTimestamp = .lt ↔ (byTimestamp x k).isLE = true := by
  rw [afterTimestamp]
  split
  · next hleast =>
      -- no time comes behind the earliest one, nor before the latest one
      have hbefore : compare Int64.maxValue x.timestamp ≠ .lt := fun h =>
        Int64.not_lt.mpr (Int64.le_maxValue _) (Std.compare_eq_lt.mp h)
      have hbehind : (compare k.timestamp x.timestamp).isLE = true := by
        rw [hleast]
        exact Std.isLE_compare.mpr (Int64.minValue_le _)
      rw [byTimestamp_eq, byTimestamp_eq, isLE_then_of_isLE hbehind,
        ← byVisibility_afterVisibility]
      exact then_eq_lt_of_ne hbefore
  · next hleast =>
      refine then_eq_lt_iff ?_
      show compare (k.timestamp - 1) x.timestamp = .lt
        ↔ (compare k.timestamp x.timestamp).isLE = true
      rw [Std.compare_eq_lt, Std.isLE_compare, sub_one_lt_iff hleast]

/-- In the components compared, a key lies before the following key of `k` exactly if it does
not lie behind `k`. -/
theorem compareUpTo_following (k x : Key) (p : Part) :
    compareUpTo p x (k.following p) = .lt ↔ (compareUpTo p x k).isLE = true := by
  cases p with
  | row => exact Bytes.compare_successor_eq_lt_iff
  | family => exact then_eq_lt_iff (o := byRow x k) Bytes.compare_successor_eq_lt_iff
  | qualifier => exact then_eq_lt_iff (o := byFamily x k) Bytes.compare_successor_eq_lt_iff
  | visibility => exact byVisibility_afterVisibility
  | timestamp => exact byTimestamp_afterTimestamp
  | deletion =>
      show byDeletion x (k.following .deletion) = .lt ↔ (byDeletion x k).isLE = true
      rw [following]
      split
      · next hmarker =>
          refine then_eq_lt_iff (o := byTimestamp x k) ?_
          show compare false x.deleted = .lt ↔ (compare k.deleted x.deleted).isLE = true
          rw [hmarker]
          cases x.deleted <;> decide
      · next hlive =>
          have hbefore : compare true x.deleted ≠ .lt := by cases x.deleted <;> decide
          have hbehind : (compare k.deleted x.deleted).isLE = true := by
            rw [Bool.eq_false_of_not_eq_true hlive]
            cases x.deleted <;> decide
          rw [byDeletion_eq x k, isLE_then_of_isLE hbehind, ← byTimestamp_afterTimestamp]
          exact then_eq_lt_of_ne hbefore

/-- The following key of a whole key is the very next one. -/
theorem covBy_following (k : Key) : k ⋖ k.following .deletion := by
  have hbefore := fun x => (compareUpTo_following k x .deletion)
  refine ⟨(hbefore k).mpr Std.ReflCmp.isLE_rfl, ?_⟩
  intro x hk hx
  exact absurd hk (not_lt.mpr ((hbefore x).mp hx))

/-- Right before a live key lies the deletion marker that differs in nothing else. -/
theorem marker_covBy (hlive : k.deleted = false) : k.withDeleted true ⋖ k := by
  have hnext : (k.withDeleted true).following .deletion = k := by
    rw [withDeleted, following, if_pos rfl, withDeleted, ← hlive]
  have hcov := covBy_following (k.withDeleted true)
  rwa [hnext] at hcov

/-! ## In the components behind -/

/-- The first live key of those that agree with `k` up to the part; with the whole key that is
`k` itself. -/
def first (k : Key) : Part → Key
  | .row => ofRow k.row
  | .family => ofFamily k.row k.family
  | .qualifier => ofColumn k.row k.family k.qualifier
  | .visibility => ⟨k.row, k.family, k.qualifier, k.visibility, Int64.maxValue, false⟩
  | .timestamp => k.withDeleted false
  | .deletion => k

/-- Nothing that agrees with a key lies before the deletion marker at the first one. -/
theorem marker_first_le (p : Part) (x : Key) : (x.first p).withDeleted true ≤ x := by
  have hlatest : x.timestamp ≤ Int64.maxValue := Int64.le_maxValue _
  have hmarker : x.deleted ≤ true := Bool.le_true _
  cases p with
  | row =>
      exact le_of_components (le_refl _) (List.nil_le _) (List.nil_le _) (List.nil_le _) hlatest
        hmarker
  | family =>
      exact le_of_components (le_refl _) (le_refl _) (List.nil_le _) (List.nil_le _) hlatest hmarker
  | qualifier =>
      exact le_of_components (le_refl _) (le_refl _) (le_refl _) (List.nil_le _) hlatest hmarker
  | visibility =>
      exact le_of_components (le_refl _) (le_refl _) (le_refl _) (le_refl _) hlatest hmarker
  | timestamp | deletion =>
      exact le_of_components (le_refl _) (le_refl _) (le_refl _) (le_refl _) (Int64.le_refl _)
        hmarker

/-- So no live key lies before the first one itself. -/
theorem first_le (hx : x.deleted = false ∨ p = .deletion) : x.first p ≤ x := by
  by_cases hp : p = .deletion
  · rw [hp]
    exact le_refl x
  · have hfirst : (x.first p).deleted = false := by cases p <;> first | rfl | exact absurd rfl hp
    have hne : (x.first p).withDeleted true ≠ x := fun h =>
      Bool.noConfusion ((congrArg Key.deleted h).trans (hx.resolve_right hp))
    exact (marker_covBy hfirst).ge_of_gt (lt_of_le_of_ne (marker_first_le p x) hne)

/-- Every key of a column but the foremost one lies at or after its first live key. -/
theorem ofColumn_le (h : k.isForemost = false) : ofColumn k.row k.family k.qualifier ≤ k := by
  have hne : (k.first .qualifier).withDeleted true ≠ k := by
    intro hk
    rw [← hk] at h
    exact Bool.noConfusion h
  exact (marker_covBy rfl).ge_of_gt (lt_of_le_of_ne (marker_first_le .qualifier k) hne)

/-- Keys that agree up to the part have the same first one. -/
theorem first_congr (h : compareUpTo p x f = .eq) : x.first p = f.first p := by
  by_cases hp : p = .deletion
  · subst hp
    rw [Std.LawfulEqOrd.eq_of_compare (α := Key) h]
  · cases p <;>
      simp only [compareUpTo, byTimestamp_eq, byVisibility_eq, byQualifier_eq, byFamily_eq,
        byRow_eq, Ordering.then_eq_eq, Std.LawfulEqOrd.compare_eq_iff_eq] at h <;>
      simp_all [first, ofRow, ofFamily, ofColumn, withDeleted]

/-- Behind the components compared a following key starts afresh. -/
theorem first_following (k : Key) (p : Part) : (k.following p).first p = k.following p := by
  cases p with
  | timestamp =>
      show (k.afterTimestamp).withDeleted false = k.afterTimestamp
      rw [afterTimestamp]
      split <;> rfl
  | _ => rfl

/-- What lies before a key that starts afresh behind the part lies before it in the components
compared, or is the deletion marker right before it. -/
theorem lt_iff_of_first (hfirst : f.first p = f) (hlive : f.deleted = false) :
    k < f ↔ compareUpTo p k f = .lt ∨ k = f.withDeleted true := by
  constructor
  · intro hlt
    rcases hc : compareUpTo p k f with _ | _ | _
    · exact Or.inl rfl
    · have hmarker := marker_first_le p k
      rw [first_congr hc, hfirst] at hmarker
      exact Or.inr (le_antisymm ((marker_covBy hlive).le_of_lt hlt) hmarker)
    · exact absurd hlt (lt_asymm (lt_of_compareUpTo (Std.OrientedCmp.lt_of_gt hc)))
  · rintro (hlt | rfl)
    · exact lt_of_compareUpTo hlt
    · exact (marker_covBy hlive).lt

/-! ## The bound -/

/-- What does not lie behind `k` up to the part lies before the following key. -/
theorem lt_following (h : (compareUpTo p x k).isLE = true) : x < k.following p :=
  lt_of_compareUpTo ((compareUpTo_following k x p).mpr h)

/-- The live keys that lie behind `k` up to the part lie from the following key on; with the
whole key all do. -/
theorem following_le (hx : x.deleted = false ∨ p = .deletion) (h : compareUpTo p x k = .gt) :
    k.following p ≤ x := by
  have hnot : compareUpTo p x (k.following p) ≠ .lt := by
    rw [Ne, compareUpTo_following, h]
    decide
  rcases hc : compareUpTo p x (k.following p) with _ | _ | _
  · exact absurd hc hnot
  · -- what ties with the following key has the following key for its first one
    rw [← first_following k p, ← first_congr hc]
    exact first_le hx
  · exact le_of_lt (lt_of_compareUpTo (Std.OrientedCmp.lt_of_gt hc))

/-! ## Times that run out -/

/-- `afterTimestamp` where a difference of times that is no time gives nothing. -/
def afterTimestamp? (k : Key) : Option Key :=
  if k.timestamp = Int64.minValue then some k.afterVisibility
  else
    (difference? k.timestamp 1).map fun earlier =>
      ⟨k.row, k.family, k.qualifier, k.visibility, earlier, false⟩

/-- `following` where a difference of times that is no time gives nothing. -/
def following? (k : Key) : Part → Option Key
  | .timestamp => k.afterTimestamp?
  | .deletion =>
      if k.deleted then some (k.withDeleted false) else k.afterTimestamp?.map (·.withDeleted true)
  | p => some (k.following p)

theorem afterTimestamp?_eq (k : Key) : k.afterTimestamp? = some k.afterTimestamp := by
  rw [afterTimestamp?, afterTimestamp]
  split
  · rfl
  · next hleast => rw [(difference?_one hleast).1, Option.map_some]

/-- No time runs out on the way to a following key. -/
theorem following?_eq (k : Key) (p : Part) : k.following? p = some (k.following p) := by
  cases p with
  | timestamp => exact k.afterTimestamp?_eq
  | deletion =>
      rw [following?, following, k.afterTimestamp?_eq]
      split <;> rfl
  | _ => rfl

/-- The following key of `k` up to a part is the tight bound behind the keys that do not lie
behind `k` there: all of those lie before it, and from it on lie all live keys that do lie
behind `k`, with the whole key the deletion markers too. So the following key of the whole key
is the very next one. No time runs out on the way. -/
theorem following_tight (k x : Key) (p : Part) :
    ((compareUpTo p x k).isLE = true → x < k.following p)
      ∧ (compareUpTo p x k = .gt → x.deleted = false ∨ p = .deletion → k.following p ≤ x)
      ∧ k ⋖ k.following .deletion
      ∧ k.following? p = some (k.following p) := by
  refine ⟨lt_following, ?_, k.covBy_following, k.following?_eq p⟩
  intro hbehind hx
  exact following_le hx hbehind

/-- A cell written at the earliest time. -/
def earliest : Key := ⟨[1], [2], [3], [4], Int64.minValue, false⟩

/-- Behind the earliest time it is the next label that a following key goes on with. -/
theorem following_tight_earliest :
    earliest < earliest.following .timestamp
      ∧ earliest.following .timestamp ≤ ⟨[1], [2], [3], [4, 0], 7, false⟩
      ∧ earliest.following .deletion ≤ ⟨[1], [2], [3], [4, 0], Int64.maxValue, true⟩ := by
  refine ⟨(following_tight earliest earliest .timestamp).1 ?_,
    (following_tight earliest _ .timestamp).2.1 ?_ (Or.inl rfl),
    (following_tight earliest _ .deletion).2.1 ?_ (Or.inr rfl)⟩ <;> decide

end Key

end CellScan
