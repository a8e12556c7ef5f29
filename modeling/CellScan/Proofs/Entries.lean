/-
`Entries.lean` -- lists of entries in key order, and several of them as one.

`merged` says what a merge of sorted lists is, without a queue: the lists one after
the other, sorted by key so that equal keys stay in that order, and with `dedupe`
the first entry alone of each key.

Two sorted lists are equal as soon as they agree on each key apart
(`eq_of_ascending`), which is how a stable sort is recognised. From it come the two
steps that a merge takes: `merged_step` puts the least head in front and goes on
with its tail, `merged_dedupe_step` goes on without that key. A condition on keys
can be put before or behind a merge (`filter_merged`).
-/
import CellScan.Predicate
import CellScan.Proofs.Order

set_option autoImplicit false

namespace CellScan.Entry

open scoped Linear

/-- Keys do not descend. -/
def Ascending (es : List Entry) : Prop := es.Pairwise fun a b => a.1 ≤ b.1

/-- Whether two entries are in key order. -/
def inOrder (a b : Entry) : Bool := (compare a.1 b.1).isLE

/-- The first entry of each key. -/
def firsts : List Entry → List Entry
  | [] => []
  | e :: es => e :: (firsts es).filter (·.1 ≠ e.1)

/-- Lists as one in key order; of equal keys those of earlier lists come first. -/
def merged (dedupe : Bool) (lists : List (List Entry)) : List Entry :=
  let all := lists.flatten.mergeSort inOrder
  if dedupe then firsts all else all

@[simp] theorem merged_false (lists : List (List Entry)) :
    merged false lists = lists.flatten.mergeSort inOrder := rfl

@[simp] theorem merged_true (lists : List (List Entry)) :
    merged true lists = firsts (lists.flatten.mergeSort inOrder) := rfl

/-! ## Lists in order -/

theorem filter_comm (p q : Entry → Bool) (es : List Entry) :
    (es.filter p).filter q = (es.filter q).filter p := by
  rw [List.filter_filter, List.filter_filter]
  exact List.filter_congr fun x _ => Bool.and_comm _ _

theorem ascending_cons {e : Entry} {es : List Entry} :
    Ascending (e :: es) ↔ (∀ x ∈ es, e.1 ≤ x.1) ∧ Ascending es := List.pairwise_cons

theorem Ascending.sublist {xs ys : List Entry} (h : Ascending ys) (hs : xs.Sublist ys) :
    Ascending xs := List.Pairwise.sublist hs h

/-- A sorted list that has an entry of a key begins at or before the key. -/
theorem head_le_of_filter {x y : Entry} {xs ys : List Entry} (hy : Ascending (y :: ys))
    (h : (x :: xs).filter (·.1 = x.1) = (y :: ys).filter (·.1 = x.1)) : y.1 ≤ x.1 := by
  have hx : x ∈ (y :: ys).filter (·.1 = x.1) := by
    rw [← h]
    exact List.mem_filter.mpr ⟨List.mem_cons_self, by simp⟩
  rcases List.mem_cons.mp (List.mem_filter.mp hx).1 with heq | hmem
  · rw [heq]
  · exact (ascending_cons.mp hy).1 x hmem

/-- Sorted lists that agree on each key apart are equal. -/
theorem eq_of_ascending {xs ys : List Entry} (hx : Ascending xs) (hy : Ascending ys)
    (h : ∀ k, xs.filter (·.1 = k) = ys.filter (·.1 = k)) : xs = ys := by
  induction xs generalizing ys with
  | nil =>
      rcases ys with _ | ⟨y, ys⟩
      · rfl
      · have hk := h y.1
        rw [List.filter_nil, List.filter_cons_of_pos (by simp)] at hk
        exact absurd hk (List.cons_ne_nil _ _).symm
  | cons x xs ih =>
      rcases ys with _ | ⟨y, ys⟩
      · have hk := h x.1
        rw [List.filter_nil, List.filter_cons_of_pos (by simp)] at hk
        exact absurd hk (List.cons_ne_nil _ _)
      · -- each head occurs in the other list, so neither lies before the other
        have hkey : y.1 = x.1 :=
          le_antisymm (head_le_of_filter hy (h x.1)) (head_le_of_filter hx (h y.1).symm)
        have hhead := h x.1
        rw [List.filter_cons_of_pos (by simp), List.filter_cons_of_pos (by simp [hkey]),
          List.cons.injEq] at hhead
        obtain ⟨rfl, -⟩ := hhead
        have htail : ∀ k, xs.filter (·.1 = k) = ys.filter (·.1 = k) := by
          intro k
          have hk := h k
          rw [List.filter_cons, List.filter_cons] at hk
          split at hk
          · exact (List.cons.inj hk).2
          · exact hk
        rw [ih (ascending_cons.mp hx).2 (ascending_cons.mp hy).2 htail]

/-! ## Stable sorting -/

theorem inOrder_iff {a b : Entry} : inOrder a b = true ↔ a.1 ≤ b.1 := Iff.rfl

theorem inOrder_trans (a b c : Entry) (hab : inOrder a b = true) (hbc : inOrder b c = true) :
    inOrder a c = true := le_trans (inOrder_iff.mp hab) (inOrder_iff.mp hbc)

theorem inOrder_total (a b : Entry) : (inOrder a b || inOrder b a) = true := by
  rw [Bool.or_eq_true]
  exact le_total a.1 b.1

theorem ascending_mergeSort (es : List Entry) : Ascending (es.mergeSort inOrder) :=
  List.pairwise_mergeSort inOrder_trans inOrder_total es

/-- Sorting leaves the entries of one key in their order. -/
theorem filter_key_mergeSort (es : List Entry) (k : Key) :
    (es.mergeSort inOrder).filter (·.1 = k) = es.filter (·.1 = k) := by
  have hpair : (es.filter (·.1 = k)).Pairwise fun a b => inOrder a b = true := by
    refine List.pairwise_of_forall_mem_list ?_
    intro a ha b hb
    have hak : a.1 = k := of_decide_eq_true (List.mem_filter.mp ha).2
    have hbk : b.1 = k := of_decide_eq_true (List.mem_filter.mp hb).2
    rw [inOrder_iff, hak, hbk]
  have hsub : (es.filter (·.1 = k)).Sublist (es.mergeSort inOrder) :=
    List.sublist_mergeSort inOrder_trans inOrder_total hpair List.filter_sublist
  -- a sublist of the entries of the key that has as many of them is all of them
  have hsub' := hsub.filter (·.1 = k)
  rw [List.filter_filter] at hsub'
  simp only [Bool.and_self] at hsub'
  refine (hsub'.eq_of_length ?_).symm
  exact ((List.mergeSort_perm es inOrder).filter _).length_eq.symm

/-- What sorts a list stably is `mergeSort`. -/
theorem eq_mergeSort {xs es : List Entry} (hx : Ascending xs)
    (h : ∀ k, xs.filter (·.1 = k) = es.filter (·.1 = k)) : xs = es.mergeSort inOrder := by
  refine eq_of_ascending hx (ascending_mergeSort es) ?_
  intro k
  rw [h k, filter_key_mergeSort]

/-- A condition on keys can be put before sorting or behind it. -/
theorem filter_mergeSort (p : Key → Bool) (es : List Entry) :
    (es.mergeSort inOrder).filter (fun e => p e.1)
      = (es.filter fun e => p e.1).mergeSort inOrder := by
  refine eq_mergeSort ((ascending_mergeSort es).sublist List.filter_sublist) ?_
  intro k
  rw [filter_comm, filter_key_mergeSort, filter_comm]

/-! ## First entries -/

theorem firsts_sublist (es : List Entry) : (firsts es).Sublist es := by
  induction es with
  | nil => exact List.Sublist.slnil
  | cons e es ih => exact (List.filter_sublist.trans ih).cons_cons e

/-- A condition on keys can be put before or behind taking the first entries. -/
theorem filter_firsts (p : Key → Bool) (es : List Entry) :
    (firsts es).filter (fun e => p e.1) = firsts (es.filter fun e => p e.1) := by
  induction es with
  | nil => rfl
  | cons e es ih =>
      rw [firsts, List.filter_cons, List.filter_cons]
      by_cases hp : p e.1 = true
      · rw [if_pos hp, if_pos hp, firsts, filter_comm, ih]
      · rw [if_neg hp, if_neg hp, ← ih, List.filter_filter]
        -- the entries of the key that is left out fail the condition anyway
        refine List.filter_congr ?_
        intro x _
        by_cases hx : x.1 = e.1
        · simp [hx, hp]
        · simp [hx]

/-! ## Merging -/

theorem ascending_merged (dedupe : Bool) (lists : List (List Entry)) :
    Ascending (merged dedupe lists) := by
  have hall := ascending_mergeSort lists.flatten
  cases dedupe
  · exact hall
  · exact hall.sublist (firsts_sublist _)

theorem length_merged_le (dedupe : Bool) (lists : List (List Entry)) :
    (merged dedupe lists).length ≤ lists.flatten.length := by
  cases dedupe
  · exact (List.length_mergeSort _).le
  · exact (firsts_sublist _).length_le.trans (List.length_mergeSort _).le

/-- A condition on keys can be put before a merge or behind it. -/
theorem filter_merged (p : Key → Bool) (dedupe : Bool) (lists : List (List Entry)) :
    (merged dedupe lists).filter (fun e => p e.1)
      = merged dedupe (lists.map fun es => es.filter fun e => p e.1) := by
  have hall : (lists.flatten.mergeSort inOrder).filter (fun e => p e.1)
      = (lists.map fun es => es.filter fun e => p e.1).flatten.mergeSort inOrder := by
    rw [filter_mergeSort, List.filter_flatten]
  cases dedupe
  · exact hall
  · rw [merged_true, filter_firsts, hall, merged_true]

theorem merged_nil {dedupe : Bool} {lists : List (List Entry)} (h : ∀ es ∈ lists, es = []) :
    merged dedupe lists = [] := by
  have hflat : lists.flatten = [] := List.flatten_eq_nil_iff.mpr h
  rw [merged, hflat, List.mergeSort_nil]
  cases dedupe <;> rfl

/-- The least head comes first, and the merge goes on with its tail. -/
theorem merged_step {pre post : List (List Entry)} {e : Entry} {tail : List Entry}
    (hpre : ∀ x ∈ pre.flatten, e.1 < x.1) (htail : ∀ x ∈ tail, e.1 ≤ x.1)
    (hpost : ∀ x ∈ post.flatten, e.1 ≤ x.1) :
    merged false (pre ++ (e :: tail) :: post) = e :: merged false (pre ++ tail :: post) := by
  refine (eq_mergeSort ?_ ?_).symm
  · refine ascending_cons.mpr ⟨?_, ascending_mergeSort _⟩
    intro x hx
    rw [merged_false, List.mem_mergeSort, List.flatten_append, List.flatten_cons,
      List.mem_append, List.mem_append] at hx
    rcases hx with hx | hx | hx
    · exact le_of_lt (hpre x hx)
    · exact htail x hx
    · exact hpost x hx
  · intro k
    rw [List.filter_cons, merged_false, filter_key_mergeSort]
    simp only [List.flatten_append, List.flatten_cons, List.filter_append, List.cons_append,
      List.filter_cons]
    by_cases hk : e.1 = k
    · -- of the lists before, none has an entry of the key
      have hnone : pre.flatten.filter (·.1 = k) = [] := by
        rw [List.filter_eq_nil_iff]
        intro x hx
        rw [decide_eq_true_iff, ← hk]
        exact ne_of_gt (hpre x hx)
      simp [hk, hnone]
    · simp [hk]

/-- On a sorted list from a key on, what is not of that key begins after its repeats. -/
theorem dropWhile_key {k : Key} {es : List Entry} (h : Ascending es) (hk : ∀ x ∈ es, k ≤ x.1) :
    es.dropWhile (·.1 = k) = es.filter (·.1 ≠ k) := by
  induction es with
  | nil => rfl
  | cons e es ih =>
      obtain ⟨he, hes⟩ := ascending_cons.mp h
      have hkes : ∀ x ∈ es, k ≤ x.1 := fun x hx => hk x (List.mem_cons_of_mem e hx)
      by_cases hek : e.1 = k
      · -- a repeat: both leave it out
        rw [List.dropWhile_cons_of_pos (by simp [hek]), List.filter_cons_of_neg (by simp [hek])]
        exact ih hes hkes
      · have hlt : k < e.1 := lt_of_le_of_ne (hk e List.mem_cons_self) (Ne.symm hek)
        rw [List.dropWhile_cons_of_neg (by simp [hek]), List.filter_cons_of_pos (by simp [hek])]
        refine congrArg (e :: ·) (List.filter_eq_self.mpr ?_).symm
        intro x hx
        exact decide_eq_true (ne_of_gt (lt_of_lt_of_le hlt (he x hx)))

/-- With `dedupe` the least key comes once, and the merge goes on without it. -/
theorem merged_dedupe_step {lists pre post : List (List Entry)} {e : Entry} {tail : List Entry}
    (hlists : lists = pre ++ (e :: tail) :: post) (hasc : ∀ es ∈ lists, Ascending es)
    (hpre : ∀ x ∈ pre.flatten, e.1 < x.1) (htail : ∀ x ∈ tail, e.1 ≤ x.1)
    (hpost : ∀ x ∈ post.flatten, e.1 ≤ x.1) :
    merged true lists = e :: merged true (lists.map fun es => es.dropWhile (·.1 = e.1)) := by
  have hleast : ∀ es ∈ lists, ∀ x ∈ es, e.1 ≤ x.1 := by
    intro es hes x hx
    rw [hlists, List.mem_append, List.mem_cons] at hes
    rcases hes with hes | rfl | hes
    · exact le_of_lt (hpre x (List.mem_flatten_of_mem hes hx))
    · rcases List.mem_cons.mp hx with rfl | hx
      · exact le_refl _
      · exact htail x hx
    · exact hpost x (List.mem_flatten_of_mem hes hx)
  -- passing the repeats of the least key is leaving the key out
  have hdrop : (lists.map fun es => es.dropWhile (·.1 = e.1))
      = lists.map fun es => es.filter (·.1 ≠ e.1) :=
    List.map_congr_left fun es hes => dropWhile_key (hasc es hes) (hleast es hes)
  have hsort : lists.flatten.mergeSort inOrder = e :: merged false (pre ++ tail :: post) := by
    have hstep := merged_step hpre htail hpost
    rwa [← hlists] at hstep
  have hrest : (merged false (pre ++ tail :: post)).filter (·.1 ≠ e.1)
      = (lists.map fun es => es.filter (·.1 ≠ e.1)).flatten.mergeSort inOrder := by
    have hall := filter_mergeSort (fun k => decide (k ≠ e.1)) lists.flatten
    rwa [hsort, List.filter_cons_of_neg (by simp), List.filter_flatten] at hall
  rw [hdrop, merged_true, merged_true, hsort, firsts, filter_firsts (fun k => decide (k ≠ e.1)), hrest]

end CellScan.Entry
