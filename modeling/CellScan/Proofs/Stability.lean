/-
`Stability.lean` -- a merge is a stable sort of what its children lead through.

Over children that lead through lists in key order, a merge leads through all of their
entries (`Entry.Sorts`): each child's in its own order, and of equal keys those of the earlier
child first. With `dedupe` it leads through the first entry of each key of that list
(`Entry.FirstOfEach`). Either description leaves one list only (`Entry.Sorts.unique`,
`Entry.FirstOfEach.unique`), so nothing has to be taken from how `Entry.merged` is computed.

It makes no difference whether the children stand somewhere when they are put together or are
sought with the merge, nor what the merge has been through before the seek
(`Merge.sorts_stably`).
-/
import CellScan.Proofs.Merge
import CellScan.Proofs.Sources

set_option autoImplicit false

namespace CellScan

open CellScan.Action CellScan.Cursor
open List (Forall₂)
open scoped Linear

/-! ## Stable sorts of several lists -/

namespace Entry

variable {ds : List (List Entry)} {all es fs : List Entry} {dedupe : Bool}

/-- The entries of all lists, each as often as it is there, in key order. The entries of a list
keep their order, and of one key those of earlier lists come first. -/
structure Sorts (ds : List (List Entry)) (es : List Entry) : Prop where
  perm : es.Perm ds.flatten
  ascending : Ascending es
  kept : ∀ d ∈ ds, d.Sublist es
  ties : ∀ k, es.filter (·.1 = k) = ds.flatten.filter (·.1 = k)

/-- The first entry of each key of a list and no others, in the order of their keys. -/
structure FirstOfEach (all es : List Entry) : Prop where
  rising : es.Pairwise fun a b => a.1 < b.1
  first : ∀ k, es.find? (·.1 = k) = all.find? (·.1 = k)

/-- What a merge of lists comes to. -/
def Merges (dedupe : Bool) (ds : List (List Entry)) (es : List Entry) : Prop :=
  ∃ all, Sorts ds all ∧ if dedupe then FirstOfEach all es else es = all

theorem Sorts.unique (he : Sorts ds es) (hf : Sorts ds fs) : es = fs :=
  eq_of_ascending he.ascending hf.ascending fun k => (he.ties k).trans (hf.ties k).symm

/-- Where keys rise, the entries of a key are the first one. -/
theorem filter_key_of_rising (h : es.Pairwise fun a b => a.1 < b.1) (k : Key) :
    es.filter (·.1 = k) = (es.find? (·.1 = k)).toList := by
  induction es with
  | nil => rfl
  | cons e es ih =>
      obtain ⟨he, hes⟩ := List.pairwise_cons.mp h
      by_cases hk : e.1 = k
      · have hnone : es.filter (·.1 = k) = [] := by
          rw [List.filter_eq_nil_iff]
          intro x hx
          rw [decide_eq_true_iff, ← hk]
          exact ne_of_gt (he x hx)
        rw [List.filter_cons_of_pos (by simp [hk]), List.find?_cons_of_pos (by simp [hk]), hnone]
        rfl
      · rw [List.filter_cons_of_neg (by simp [hk]), List.find?_cons_of_neg (by simp [hk])]
        exact ih hes

theorem FirstOfEach.unique (he : FirstOfEach all es) (hf : FirstOfEach all fs) : es = fs := by
  refine eq_of_ascending (he.rising.imp le_of_lt) (hf.rising.imp le_of_lt) fun k => ?_
  rw [filter_key_of_rising he.rising, filter_key_of_rising hf.rising, he.first, hf.first]

theorem sorts_merged (h : ∀ d ∈ ds, Ascending d) : Sorts ds (merged false ds) where
  perm := List.mergeSort_perm _ _
  ascending := ascending_mergeSort _
  kept d hd :=
    List.sublist_mergeSort inOrder_trans inOrder_total (h d hd) (List.sublist_flatten_of_mem hd)
  ties k := filter_key_mergeSort _ k

/-- Taking the first entries leaves out the repeats of each key. -/
theorem rising_firsts (h : Ascending all) : (firsts all).Pairwise fun a b => a.1 < b.1 := by
  induction all with
  | nil => exact List.Pairwise.nil
  | cons e es ih =>
      obtain ⟨he, hes⟩ := ascending_cons.mp h
      refine List.pairwise_cons.mpr ⟨?_, (ih hes).sublist List.filter_sublist⟩
      intro x hx
      obtain ⟨hmem, hne⟩ := List.mem_filter.mp hx
      exact lt_of_le_of_ne (he x ((firsts_sublist es).mem hmem)) (of_decide_eq_true hne).symm

theorem head?_firsts (es : List Entry) : (firsts es).head? = es.head? := by
  cases es <;> rfl

theorem firstOfEach_firsts (h : Ascending all) : FirstOfEach all (firsts all) where
  rising := rising_firsts h
  first k := by
    -- the first entry of a key is the head of the entries of that key
    rw [← List.head?_filter, ← List.head?_filter, filter_firsts (fun k' => decide (k' = k)),
      head?_firsts]

theorem merges_merged (h : ∀ d ∈ ds, Ascending d) (dedupe : Bool) :
    Merges dedupe ds (merged dedupe ds) := by
  refine ⟨merged false ds, sorts_merged h, ?_⟩
  cases dedupe
  · rfl
  · exact firstOfEach_firsts (sorts_merged h).ascending

end Entry

/-! ## Merges -/

namespace Merge

variable {σ : Type} [Cursor σ] {m : Merge σ} {ds : List (List Entry)} {range : Range}
  {families : FamilyFilter}

open CellScan.Entry

/-- Whatever a merge has been through, seeks of its children that succeed place it where they
lead to. -/
theorem standing_of_seeks
    (h : Forall₂ (fun c d => ∃ u, Runs (Cursor.seek range families) c () u ∧ Leads u d ∧ Ascending d)
      m.children ds) :
    ∃ m', Runs (Cursor.seek range families) m () m' ∧ m'.dedupe = m.dedupe ∧ Standing [] m' ds := by
  obtain ⟨us, hus, hleads⟩ :=
    Parallel.choose (T := fun u d => Leads u d ∧ Ascending d) h fun _ _ hc => hc
  exact ⟨_, place_runs hus, rfl, standing_queueOf hleads rfl⟩

/-- A merge over children that lead through lists in key order leads through the stable sort of
these lists, or with `dedupe` through the first entry of each key of it, and draining it
gives that list. So does one whose children come to such lists when it is sought. -/
theorem sorts_stably (m : Merge σ) (ds : List (List Entry)) :
    (Forall₂ (fun c d => Leads c d ∧ Ascending d) m.children ds →
      ∃ es, Merges m.dedupe ds es ∧ Leads (ofChildren m.children m.dedupe m.account) es
        ∧ ∀ n, es.length < n →
          (Scan.collect n (ofChildren m.children m.dedupe m.account)).result = .ok es)
    ∧ ∀ range families,
      Forall₂ (fun c d => ∃ u, Runs (Cursor.seek range families) c () u ∧ Leads u d ∧ Ascending d)
        m.children ds →
      ∃ m' es, Runs (Cursor.seek range families) m () m' ∧ Merges m.dedupe ds es ∧ Leads m' es
        ∧ (Scan.scan range families m).result = .ok es := by
  refine ⟨?_, ?_⟩
  · intro h
    have hst : Standing [] (ofChildren m.children m.dedupe m.account) ds := standing_queueOf h rfl
    have hleads := leads hst
    exact ⟨_, merges_merged hst.ascending m.dedupe, hleads, fun n hn => hleads.collect hn⟩
  · intro range families h
    obtain ⟨m', hm', hdedupe, hst⟩ := standing_of_seeks h
    have hleads := leads hst
    rw [hdedupe] at hleads
    exact ⟨m', _, hm', merges_merged hst.ascending m.dedupe, hleads, hleads.scan hm'⟩

/-- Entries of two rows, the first row twice over. -/
def firstTape : List Entry := [(Key.ofRow [1], [1]), (Key.ofRow [1], [2]), (Key.ofRow [3], [3])]

/-- Entries that share a row with these. -/
def secondTape : List Entry := [(Key.ofRow [1], [4]), (Key.ofRow [2], [5])]

/-- The merge of two tapes with these entries. -/
def tapes (dedupe : Bool) : Merge Tape :=
  ofChildren [Tape.ofEntries firstTape none true, Tape.ofEntries secondTape none true] dedupe none

/-- The row that both have comes from the first tape, and with `dedupe` once. It makes no
difference whether the tapes are sought with the merge or before it is made. -/
theorem sorts_stably_tapes :
    Merges false [firstTape, secondTape]
        [(Key.ofRow [1], [1]), (Key.ofRow [1], [2]), (Key.ofRow [1], [4]), (Key.ofRow [2], [5]),
          (Key.ofRow [3], [3])]
      ∧ Merges true [firstTape, secondTape]
        [(Key.ofRow [1], [1]), (Key.ofRow [2], [5]), (Key.ofRow [3], [3])]
      ∧ ∃ (us : List Tape) (es : List Entry), Leads (ofChildren us true none) es
        ∧ Merges true [firstTape, secondTape] es := by
  have hfirst : Ascending firstTape := by
    unfold Ascending
    decide +kernel
  have hsecond : Ascending secondTape := by
    unfold Ascending
    decide +kernel
  have hseek : ∀ {d : List Entry}, Ascending d →
      ∃ u, Runs (Cursor.seek Range.all FamilyFilter.all) (Tape.ofEntries d none true) () u
        ∧ Leads u d ∧ Ascending d := by
    intro d hd
    obtain ⟨u, hu, hl⟩ := (Tape.serves (t := Tape.ofEntries d none true) hd rfl rfl).lists.seek
      .here Range.all FamilyFilter.all
    exact ⟨u, hu, Entry.within_all false d ▸ hl, hd⟩
  have hboth : Forall₂ (fun c d => ∃ u, Runs (Cursor.seek Range.all FamilyFilter.all) c () u
      ∧ Leads u d ∧ Ascending d) (tapes false).children [firstTape, secondTape] :=
    .cons (hseek hfirst) (.cons (hseek hsecond) .nil)
  obtain ⟨-, es, -, hes, -, hscan⟩ :=
    (sorts_stably (tapes false) _).2 Range.all FamilyFilter.all hboth
  obtain ⟨-, fs, -, hfs, -, hscan'⟩ :=
    (sorts_stably (tapes true) _).2 Range.all FamilyFilter.all hboth
  obtain ⟨us, -, hus⟩ :=
    Parallel.choose (S := fun _ _ => True) (T := fun u d => Leads u d ∧ Ascending d) hboth
      fun _ _ ⟨u, _, hu⟩ => ⟨u, trivial, hu⟩
  obtain ⟨gs, hgs, hleads, -⟩ := (sorts_stably (ofChildren us true none) _).1 hus
  refine ⟨?_, ?_, us, gs, hleads, hgs⟩
  · obtain rfl := Except.ok.inj (hscan.symm.trans rfl)
    exact hes
  · obtain rfl := Except.ok.inj (hscan'.symm.trans rfl)
    exact hfs

end Merge

end CellScan
