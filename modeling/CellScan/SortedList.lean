/-
`SortedList.lean` -- lists in strictly ascending order of a key.

Sets of tokens, tables of cells, option maps and the queue of a merge are all
lists kept in order by one function, `insertBy`: it puts an item where its key
belongs, in the place of an item with the same key. Two laws say what it does:
the result is in order again (`sorted_insertBy`), and its members are the new
item and the old ones with another key (`mem_insertBy`).
-/
set_option autoImplicit false

namespace CellScan.SortedList

variable {α β : Type} [Ord β]

/-- The keys of the list ascend strictly. -/
def Sorted (f : α → β) (xs : List α) : Prop :=
  xs.Pairwise fun x y => compare (f x) (f y) = .lt

/-- Puts `x` where its key `f x` belongs, in the place of an item with that key. -/
def insertBy (f : α → β) (x : α) : List α → List α
  | [] => [x]
  | y :: ys =>
      match compare (f x) (f y) with
      | .lt => x :: y :: ys
      | .eq => x :: ys
      | .gt => y :: insertBy f x ys

/-- Puts items into a list one after the other. -/
def insertAllBy (f : α → β) (xs start : List α) : List α :=
  xs.foldl (fun ys x => insertBy f x ys) start

/-! ## What an insertion does -/

@[simp] theorem insertBy_nil (f : α → β) (x : α) : insertBy f x [] = [x] := rfl

/-- An item of the new list is the new item or was there. -/
theorem eq_or_mem_of_mem_insertBy (f : α → β) {x y : α} {ys : List α}
    (h : y ∈ insertBy f x ys) : y = x ∨ y ∈ ys := by
  induction ys with
  | nil => simpa using h
  | cons z zs ih =>
      rw [insertBy] at h
      split at h
      · simpa using h
      · rcases List.mem_cons.mp h with h | h
        · exact Or.inl h
        · exact Or.inr (List.mem_cons_of_mem z h)
      · rcases List.mem_cons.mp h with h | h
        · exact Or.inr (h ▸ List.mem_cons_self)
        · rcases ih h with h | h
          · exact Or.inl h
          · exact Or.inr (List.mem_cons_of_mem z h)

/-- An item with a later key than some items in front goes behind them. -/
theorem insertBy_append [Std.OrientedOrd β] (f : α → β) {x : α} {xs : List α}
    (h : ∀ y ∈ xs, compare (f y) (f x) = .lt) (ys : List α) :
    insertBy f x (xs ++ ys) = xs ++ insertBy f x ys := by
  induction xs with
  | nil => rfl
  | cons y xs ih =>
      obtain ⟨hy, hxs⟩ := List.forall_mem_cons.mp h
      have hgt : compare (f x) (f y) = .gt := Std.OrientedCmp.gt_of_lt hy
      rw [List.cons_append, insertBy, hgt]
      exact congrArg (y :: ·) (ih hxs)

theorem insertAllBy_append [Std.OrientedOrd β] (f : α → β) {xs zs : List α}
    (h : ∀ z ∈ zs, ∀ y ∈ xs, compare (f y) (f z) = .lt) (ys : List α) :
    insertAllBy f zs (xs ++ ys) = xs ++ insertAllBy f zs ys := by
  induction zs generalizing ys with
  | nil => rfl
  | cons z zs ih =>
      obtain ⟨hz, hzs⟩ := List.forall_mem_cons.mp h
      rw [insertAllBy, insertAllBy, List.foldl_cons, List.foldl_cons, insertBy_append f hz]
      exact ih hzs (insertBy f z ys)

/-- What is put in is found under its key, and everything else is found as before. -/
theorem find?_insertBy [Std.LawfulEqOrd β] [DecidableEq β] (f : α → β) (x : α) (ys : List α) (k : β) :
    (insertBy f x ys).find? (f · = k) = if f x = k then some x else ys.find? (f · = k) := by
  induction ys with
  | nil => by_cases hx : f x = k <;> simp [hx]
  | cons y ys ih =>
      rw [insertBy]
      split
      · rw [List.find?_cons]
        by_cases hx : f x = k <;> simp [hx]
      · next heq =>
          -- the item with the same key makes way
          have hsame : f x = f y := Std.LawfulEqOrd.eq_of_compare heq
          rw [List.find?_cons, List.find?_cons, ← hsame]
          by_cases hx : f x = k <;> simp [hx]
      · next hgt =>
          rw [List.find?_cons, List.find?_cons, ih]
          by_cases hy : f y = k
          · have hne : f x ≠ k := by
              rintro rfl
              rw [hy, Std.ReflOrd.compare_self] at hgt
              exact Ordering.noConfusion hgt
            simp [hy, hne]
          · simp [hy]

variable [Std.TransOrd β]

/-- Insertion keeps the order. -/
theorem sorted_insertBy (f : α → β) (x : α) {ys : List α} (h : Sorted f ys) :
    Sorted f (insertBy f x ys) := by
  induction ys with
  | nil => exact List.pairwise_singleton _ x
  | cons z zs ih =>
      obtain ⟨hz, hzs⟩ := List.pairwise_cons.mp h
      rw [insertBy]
      split
      · next hlt =>
          refine List.pairwise_cons.mpr ⟨fun y hy => ?_, h⟩
          rcases List.mem_cons.mp hy with rfl | hy
          · exact hlt
          · exact Std.TransCmp.lt_trans hlt (hz y hy)
      · next heq =>
          refine List.pairwise_cons.mpr ⟨fun y hy => ?_, hzs⟩
          rw [Std.TransCmp.congr_left heq]
          exact hz y hy
      · next hgt =>
          refine List.pairwise_cons.mpr ⟨fun y hy => ?_, ih hzs⟩
          rcases eq_or_mem_of_mem_insertBy f hy with rfl | hy
          · exact Std.OrientedCmp.lt_of_gt hgt
          · exact hz y hy

/-- Insertion of many items keeps the order. -/
theorem sorted_insertAllBy (f : α → β) (xs : List α) {start : List α} (h : Sorted f start) :
    Sorted f (insertAllBy f xs start) := by
  induction xs generalizing start with
  | nil => exact h
  | cons x xs ih => exact ih (sorted_insertBy f x h)

/-- The members of the new list: the new item, and the old ones with another key. -/
theorem mem_insertBy (f : α → β) {x y : α} {ys : List α} (h : Sorted f ys) :
    y ∈ insertBy f x ys ↔ y = x ∨ (y ∈ ys ∧ compare (f x) (f y) ≠ .eq) := by
  induction ys with
  | nil => simp
  | cons z zs ih =>
      obtain ⟨hz, hzs⟩ := List.pairwise_cons.mp h
      rw [insertBy]
      split
      · next hlt =>
          have above : ∀ w ∈ z :: zs, compare (f x) (f w) ≠ .eq := by
            intro w hw
            rcases List.mem_cons.mp hw with rfl | hw
            · simp [hlt]
            · simp [Std.TransCmp.lt_trans hlt (hz w hw)]
          rw [List.mem_cons]
          exact or_congr_right ⟨fun hy => ⟨hy, above y hy⟩, And.left⟩
      · next heq =>
          have above : ∀ w ∈ zs, compare (f x) (f w) ≠ .eq := by
            intro w hw
            rw [Std.TransCmp.congr_left heq, hz w hw]
            exact Ordering.noConfusion
          rw [List.mem_cons, List.mem_cons]
          refine or_congr_right ⟨fun hy => ⟨Or.inr hy, above y hy⟩, ?_⟩
          rintro ⟨rfl | hy, hne⟩
          · exact absurd heq hne
          · exact hy
      · next hgt =>
          rw [List.mem_cons, List.mem_cons, ih hzs]
          constructor
          · rintro (rfl | rfl | ⟨hy, hne⟩)
            · exact Or.inr ⟨Or.inl rfl, by simp [hgt]⟩
            · exact Or.inl rfl
            · exact Or.inr ⟨Or.inr hy, hne⟩
          · rintro (rfl | ⟨rfl | hy, hne⟩)
            · exact Or.inr (Or.inl rfl)
            · exact Or.inl rfl
            · exact Or.inr (Or.inr ⟨hy, hne⟩)

end CellScan.SortedList
