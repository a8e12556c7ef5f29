/-
`Rows.lean` -- where the hits of a range lie.

A cursor is asked for more than rows: a seek is to place it at the first entry inside the
range, and once the range is exhausted it is to stand at none. An intersection falls short of
that. Its probes seek without an end, and of the range it looks at three things only: the row
the range starts in, whether a row's first key lies after the range, and the document that the
start key names, if it names one. A document that the end key names is not looked at. What it
shows is the cell of a document, wherever the postings lie that were checked.

So what is shown lies in a row of the range (`Abides`), and in the range itself unless an
end of the range lies inside that row. There it may lie before the start or after the end,
where nothing should be shown (`outside_ofRow`).
-/
import CellScan.Proofs.Intersection

set_option autoImplicit false

namespace CellScan

open CellScan.Action CellScan.Cursor CellScan.Entry
open scoped Linear

/-! ## Rows and the keys in them -/

theorem Key.ofRow_le_ofColumn (row family qualifier : Bytes) :
    Key.ofRow row ≤ Key.ofColumn row family qualifier := by
  have hlive : (Key.ofColumn row family qualifier).deleted = false := rfl
  exact Key.first_le (p := .row) (Or.inl hlive)

namespace Range

variable {r : Range} {k : Key}

/-- A key before a range that starts no later than with the key's row lies in the row of the
start. -/
theorem start_of_isBefore (hrow : r.isBeforeRow k.row = false) (h : r.isBefore k = true) :
    ∃ s, r.start = some s ∧ s.row = k.row := by
  obtain ⟨s, hs, hk⟩ := isBefore_iff.mp h
  refine ⟨s, hs, le_antisymm (isBeforeRow_eq_false_iff.mp hrow s hs) (Key.row_le_of_le ?_)⟩
  split at hk
  · exact le_of_lt hk
  · exact hk

/-- A key after a range that reaches into the key's row lies in the row of the end. -/
theorem stop_of_isAfter (hrow : r.isAfterRow k.row = false) (h : r.isAfter k = true) :
    ∃ e, r.stop = some e ∧ e.row = k.row := by
  obtain ⟨e, he, hk⟩ := isAfter_iff.mp h
  refine ⟨e, he, le_antisymm (Key.row_le_of_le ?_) ?_⟩
  · split at hk
    · exact le_of_lt hk
    · exact hk
  · refine not_lt.mp fun hlt => ?_
    -- an end in an earlier row has the first key of this row behind it
    have hfirst : r.isAfterRow k.row = true := by
      refine isAfter_iff.mpr ⟨e, he, ?_⟩
      have hless : e < Key.ofRow k.row := Key.lt_of_row_lt hlt
      split
      · exact hless
      · exact le_of_lt hless
    rw [hrow] at hfirst
    exact Bool.noConfusion hfirst

end Range

namespace Intersection

variable {σ : Type} [Cursor σ] {heeds : Bool} {es : List Entry}

/-- The entry that shows a document lies in the document's row, not before the first live
key. -/
theorem display_row (heeds : Bool) (es : List Entry) (layout : Layout) (d : Document) :
    (display heeds es layout d).1.1.row = d.row
      ∧ Key.ofRow d.row ≤ (display heeds es layout d).1.1 := by
  have hkey := documentKey_eq_ofColumn layout d.row d.id
  unfold display
  split
  · next x hhead =>
      obtain ⟨-, hin⟩ := List.mem_filter.mp (List.mem_of_mem_head? hhead)
      rw [Bool.and_eq_true] at hin
      obtain ⟨hfirst, hsame⟩ := Range.ofColumn_le_of_contains hin.1
      rw [documentKey_row] at hsame hfirst
      exact ⟨hsame, le_trans (Key.ofRow_le_ofColumn _ _ _) hfirst⟩
  · refine ⟨documentKey_row layout d.row d.id, ?_⟩
    show Key.ofRow d.row ≤ layout.documentKey d.row d.id
    rw [hkey]
    exact Key.ofRow_le_ofColumn _ _ _

/-! ## Hits and the range -/

/-- How a hit and the key that shows it abide by a range: by the row, and in the row of a
start key that names a document also by the document. The key lies in the range unless one
of the range's ends lies inside the row. -/
structure Abides (layout : Layout) (range : Range) (d : Document) (k : Key) : Prop where
  row : k.row = d.row
  within : range.containsRow k.row = true
  resumed : ∀ s, range.start = some s → s.row = k.row →
    ∀ id, layout.docId? s = some id → id ≠ [] →
      if range.startInclusive then id ≤ d.id else id < d.id
  before : range.isBefore k = true →
    range.isBefore (Key.ofRow k.row) = true ∧ ∃ s, range.start = some s ∧ s.row = k.row
  after : range.isAfter k = true → ∃ e, range.stop = some e ∧ e.row = k.row

/-- A hit that a search in the range has found abides by it. -/
theorem abides_display {layout : Layout} {range : Range} {d : Document}
    (hrange : range.isEmpty = false) (hwithin : range.isAfterRow d.row = false)
    (hadmits : (Target.ofRange layout range).admits d = true) :
    Abides layout range d (display heeds es layout d).1.1 := by
  obtain ⟨hrow, hfirst⟩ := display_row heeds es layout d
  obtain ⟨hbefore, hresumed⟩ := admits_ofRange.mp hadmits
  rw [← hrow] at hbefore hwithin hfirst
  refine ⟨hrow, Range.containsRow_iff.mpr ⟨hrange, hbefore, hwithin⟩, ?_, ?_, ?_⟩
  · intro s hs hsame
    exact hresumed s hs (hsame.trans hrow)
  · intro h
    exact ⟨Range.isBefore_of_le h hfirst, Range.start_of_isBefore hbefore h⟩
  · exact Range.stop_of_isAfter hwithin

/-- Where an intersection stands after a seek of a range and steps from there: at a hit that
a search in the range has found, or at none. -/
structure Under (heeds : Bool) (es : List Entry) (q : Query) (r : Range) (x : Intersection σ) :
    Prop where
  ready : Ready heeds es x
  query : x.query = q
  range : x.range = r
  shown : x.shown = x.hit.map fun d => (display heeds es q.layout d).1
  hit : ∀ d ∈ x.hit, r.isEmpty = false ∧ r.isAfterRow d.row = false
    ∧ (Target.ofRange q.layout r).admits d = true

section Under

variable {q : Query} {r : Range} {x y : Intersection σ}

/-- A search from a target in the range stays under it. -/
theorem Arrived.under {t : Target} (h : Arrived heeds es t x y) (hquery : x.query = q)
    (hrange : x.range = r) (hempty : r.isEmpty = false)
    (ht : ∀ d, t.admits d = true → (Target.ofRange q.layout r).admits d = true) :
    Under heeds es q r y := by
  refine ⟨h.searched.ready, h.query.trans hquery, h.range.trans hrange, ?_, ?_⟩
  · rw [h.shown, h.query, hquery]
  · intro d hd
    obtain ⟨term, hterm⟩ := List.exists_mem_of_length_pos (positives_ne_nil x.query)
    obtain ⟨-, hadmits, hwithin⟩ := h.searched.found term hterm d hd
    rw [search, hrange] at hwithin
    exact ⟨hempty, hwithin, ht d hadmits⟩

theorem under_seek (h : Ready heeds es x) (hquery : x.query = q) (r : Range)
    (families : FamilyFilter) : Under heeds es q r (make x (.seek r families)) := by
  obtain ⟨y, hy, hcases⟩ := seek_cases h r families
  have hmake : make x (.seek r families) = y := hy.state
  rw [hmake]
  obtain ⟨-, rfl⟩ | ⟨hempty, harr⟩ := hcases
  · exact ⟨ready_restart h r, hquery, rfl, rfl, fun d hd => absurd hd (by simp [restart])⟩
  · exact harr.under hquery rfl hempty fun d hd => hquery ▸ hd

theorem under_next (h : Under heeds es q r x) : Under heeds es q r (make x .next) := by
  obtain ⟨-, hmake⟩ | ⟨d, y, hhit, hy, harr⟩ := next_cases h.ready
  · rw [hmake]
    exact h
  · obtain ⟨hempty, -, hadmits⟩ := h.hit d hhit
    have hmake : make x .next = y := hy.state
    rw [hmake]
    refine harr.under h.query h.range hempty fun d' hd' => ?_
    exact Target.admits_of_ofDocument hadmits (Target.admits_of_afterDocument hd')

theorem under_steps (h : Under heeds es q r x) (n : Nat) :
    Under heeds es q r (after x (List.replicate n .next)) := by
  induction n generalizing x with
  | zero => exact h
  | succ n ih => exact ih (under_next h)

end Under

/-- After a seek of a range and some steps an intersection shows nothing, or a hit that
abides by the range. -/
theorem top_abides {source : σ} (hsource : Serves source heeds es) (layout : Layout)
    {terms : List Bytes} {flags : List Bool} (hterms : terms ≠ [])
    (hflags : flags = [] ∨ flags.length = terms.length)
    (hasks : ∃ t ∈ Query.withFlags terms flags, t.negated = false) (env : Environment)
    (calls : List Call) (range : Range) (families : FamilyFilter) (n : Nat) :
    ∃ x, ofTerms source layout terms flags env = .ok x
      ∧ (perform (.seek range families) (after x calls)).result = .ok ()
      ∧ ∀ e,
        Cursor.top (after x (calls ++ .seek range families :: List.replicate n .next)) = some e →
        ∃ d, (after x (calls ++ .seek range families :: List.replicate n .next)).hit = some d
          ∧ Abides layout range d e.1 := by
  obtain ⟨x, hbuild, hready, hquery⟩ := ready_ofTerms hsource layout hterms hflags hasks env
  obtain ⟨hthere, hquery'⟩ := ready_after hready calls
  obtain ⟨y, hy, -⟩ := seek_ready hthere range families
  refine ⟨x, hbuild, hy.result, ?_⟩
  have hunder := under_steps (under_seek hthere (hquery'.trans hquery) range families) n
  have hafter : after x (calls ++ .seek range families :: List.replicate n .next)
      = after (make (after x calls) (.seek range families)) (List.replicate n .next) := by
    rw [after, List.foldl_append]
    rfl
  rw [hafter]
  intro e he
  have hshown := hunder.shown.symm.trans he
  obtain ⟨d, hd, rfl⟩ := Option.map_eq_some_iff.mp hshown
  obtain ⟨hempty, hwithin, hadmits⟩ := hunder.hit d hd
  exact ⟨d, hd, abides_display hempty hwithin hadmits⟩

/-! ### Ends inside a row

The postings of the shelf lie before the documents of their row. A range that ends between
them reaches the postings and not the documents, one that starts behind the documents
reaches neither, and both show a document. -/

/-- Up to the postings of the second term. -/
def uptoPostings : Range :=
  ⟨none, true, some (Key.ofFamily [5] [2]), false, fun s hs => absurd hs (Option.not_mem_none s)⟩

/-- From behind the documents of the row. -/
def behindDocuments : Range := Range.startingAt (Key.ofFamily [5] [200])

/-- A hit may be shown at a key behind the range, or at one before it: outside the range that
was sought either way. -/
theorem outside_ofRow :
    ∃ x, ofTerms shelf (Layout.standard .termFamily) [[1]] [] (Environment.ofAccount 0) = .ok x
      ∧ (∃ e ∈ Cursor.top (after x [.seek uptoPostings FamilyFilter.all]),
        uptoPostings.contains e.1 = false)
      ∧ ∃ e ∈ Cursor.top (after x [.seek behindDocuments FamilyFilter.all]),
        behindDocuments.contains e.1 = false := by
  refine ⟨_, rfl, ⟨(Key.ofColumn [5] [101] [7], []), ?_, ?_⟩,
    (Key.ofColumn [5] [101] [7], []), ?_, ?_⟩
  all_goals decide +kernel

theorem top_abides_shelf :
    ∃ x, ofTerms shelf (Layout.standard .termFamily) [[1]] [] (Environment.ofAccount 0) = .ok x
      ∧ (perform (.seek uptoPostings FamilyFilter.all) (after x [.next])).result = .ok ()
      ∧ ∀ e, Cursor.top (after x [.next, .seek uptoPostings FamilyFilter.all, .next]) = some e →
        ∃ d, (after x [.next, .seek uptoPostings FamilyFilter.all, .next]).hit = some d
          ∧ Abides (Layout.standard .termFamily) uptoPostings d e.1 :=
  top_abides (Table.serves shelf) (Layout.standard .termFamily) (List.cons_ne_nil [1] [])
    (Or.inl rfl) ⟨⟨[1], false⟩, List.mem_cons_self, rfl⟩ (Environment.ofAccount 0) [.next]
    uptoPostings FamilyFilter.all 1

end Intersection

end CellScan
