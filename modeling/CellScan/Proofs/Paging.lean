/-
`Paging.lean` -- going on behind a hit.

A reader who has seen a hit can come back with the key it was shown at and seek what lies
behind that key. The key says which document it was (`docId?_documentKey`), provided that the
index does not get in the way of the documents (`Layout.Separate`), and the search starts
right after that document. So the seek leads through the hits that the reader has not seen
(`scan_behind`).

The one document that cannot be gone on behind is the one with the empty identity: a start
key that names it is read as one that names none, and its row is searched from the start.
-/
import CellScan.Proofs.Intersection
import Mathlib.Data.List.Sort

set_option autoImplicit false

namespace CellScan

open CellScan.Action CellScan.Cursor CellScan.Entry
open scoped Linear

/-! ## Behind a key -/

/-- The keys behind a key. -/
def Range.behind (k : Key) : Range := { Range.startingAt k with startInclusive := false }

/-- They are a range like any other: from the key on, without the key, to no end. -/
theorem Range.ofKeys?_behind (k : Key) :
    Range.ofKeys? (some k) false none true = .ok (Range.behind k) := rfl

/-- In a list of ascending documents those behind one of them are those later than it. -/
theorem Document.mem_drop_succ_iff {ds : List Document} (h : ds.Pairwise (· < ·)) {i : Nat}
    {d : Document} (hi : ds[i]? = some d) (x : Document) :
    x ∈ ds.drop (i + 1) ↔ x ∈ ds ∧ d < x := by
  have hsplit : ds = ds.take i ++ d :: ds.drop (i + 1) := by
    obtain ⟨hlt, rfl⟩ := List.getElem?_eq_some_iff.mp hi
    rw [← List.drop_eq_getElem_cons hlt, List.take_append_drop]
  rw [hsplit] at h
  obtain ⟨-, htail, hearlier⟩ := List.pairwise_append.mp h
  constructor
  · intro hx
    exact ⟨List.mem_of_mem_drop hx, (List.pairwise_cons.mp htail).1 x hx⟩
  · rintro ⟨hx, hlt⟩
    rw [hsplit, List.mem_append, List.mem_cons] at hx
    rcases hx with hx | rfl | hx
    · exact absurd (hearlier x hx d List.mem_cons_self) (lt_asymm hlt)
    · exact absurd hlt (lt_irrefl _)
    · exact hx

theorem Document.mem_drop_iff {ds : List Document} (h : ds.Pairwise (· < ·)) {i : Nat}
    {d : Document} (hi : ds[i]? = some d) (x : Document) : x ∈ ds.drop i ↔ x ∈ ds ∧ d ≤ x := by
  obtain ⟨hlt, hget⟩ := List.getElem?_eq_some_iff.mp hi
  rw [List.drop_eq_getElem_cons hlt, hget, List.mem_cons, mem_drop_succ_iff h hi]
  constructor
  · rintro (rfl | ⟨hx, hless⟩)
    · exact ⟨List.mem_of_getElem? hi, le_refl _⟩
    · exact ⟨hx, le_of_lt hless⟩
  · rintro ⟨hx, hle⟩
    rcases lt_or_eq_of_le hle with hless | rfl
    · exact Or.inr ⟨hx, hless⟩
    · exact Or.inl rfl

/-! ## Which document a key shows -/

namespace Layout

/-- The index family is not the documents' family, nor one of those in which documents are
kept by their kinds. -/
def Separate : Layout → Prop
  | .termFamily _ => True
  | .indexFamily index documents _ _ => index ≠ documents ∧ ¬ documents ++ [0] <+: index

/-- The key of a document's column says which document it is. -/
theorem docId?_documentKey {layout : Layout} (h : layout.Separate) {row doc : Bytes} {k : Key}
    (hfamily : k.family = (layout.documentKey row doc).family)
    (hqualifier : k.qualifier = (layout.documentKey row doc).qualifier) :
    layout.docId? k = some doc := by
  rcases layout with documents | ⟨index, documents, segments, hpos⟩
  · have hf : k.family = documents := hfamily
    have hq : k.qualifier = doc := hqualifier
    rw [docId?, if_pos hf, hq]
  · obtain ⟨hindex, hkinds⟩ := h
    rcases hcut : Bytes.cutAtZero? doc with _ | ⟨kind, name⟩
    · simp only [documentKey, hcut, Key.ofColumn] at hfamily hqualifier
      rw [docId?, hfamily, if_neg hindex.symm, if_pos rfl, hqualifier]
    · simp only [documentKey, hcut, Key.ofColumn] at hfamily hqualifier
      have hsplit : doc = kind ++ 0 :: name := (Bytes.cutAtZero?_eq_some_iff.mp hcut).1
      have happend : documents ++ 0 :: kind = (documents ++ [0]) ++ kind := by
        rw [List.append_assoc, List.singleton_append]
      -- the family begins as those of the kinds do, so it is neither of the other two
      have hne : documents ++ 0 :: kind ≠ index := by
        intro heq
        rw [happend] at heq
        exact hkinds (heq ▸ List.prefix_append _ _)
      have hne' : documents ++ 0 :: kind ≠ documents := by
        intro heq
        exact absurd (List.append_right_eq_self.mp heq) (List.cons_ne_nil 0 kind)
      have hafter : Bytes.after? (documents ++ [0]) (documents ++ 0 :: kind) = some kind :=
        Bytes.after?_eq_some_iff.mpr happend
      rw [docId?, hfamily, if_neg hne, if_neg hne', hafter, Option.map_some, hqualifier, hsplit]

end Layout

namespace Intersection

open CellScan.Probe

variable {σ : Type} [Cursor σ] {heeds : Bool} {es : List Entry} {layout : Layout}
  {terms : List Query.Term}

/-- The entries that show some documents. -/
def displays (heeds : Bool) (es : List Entry) (layout : Layout) (ds : List Document) : List Entry :=
  ds.map fun d => (display heeds es layout d).1

/-! ## Answers in order -/

/-- The answers to a query within a range, in ascending order. -/
structure Listed (layout : Layout) (terms : List Query.Term) (es : List Entry) (range : Range)
    (ds : List Document) : Prop where
  ascending : ds.Pairwise (· < ·)
  mem_iff : ∀ d, d ∈ ds ↔ Answers layout terms es range d

/-- There is one such list at most. -/
theorem Listed.unique {range : Range} {ds ds' : List Document} (h : Listed layout terms es range ds)
    (h' : Listed layout terms es range ds') : ds = ds' :=
  h.ascending.eq_of_mem_iff h'.ascending fun d => (h.mem_iff d).trans (h'.mem_iff d).symm

/-- A scan lists the answers, each by the entry that shows it. -/
theorem scan_listed {x : Intersection σ} (h : Ready heeds es x) (hplain : Plain es) {range : Range}
    (hrange : range.isEmpty = false) (families : FamilyFilter) :
    ∃ ds, Listed x.query.layout x.query.terms es range ds
      ∧ (Scan.scan range families x).result = .ok (displays heeds es x.query.layout ds) := by
  obtain ⟨y, vs, hseek, hvisits, hhits, hall⟩ := visits_of_seek h hrange families
  refine ⟨vs.map Prod.fst, ⟨hhits.ascending, fun d => ?_⟩, ?_⟩
  · rw [hall hplain d]
    exact due_iff_answers hrange
  · have hshown : vs.map Prod.snd = displays heeds es x.query.layout (vs.map Prod.fst) := by
      rw [displays, List.map_map]
      exact List.map_congr_left hhits.shown
    rw [← hshown]
    exact hvisits.leads.scan hseek

/-- The answers behind a key that names a document are those later than that document, and
where its identity is empty the document itself as well. -/
theorem answers_behind_iff {k : Key} {d : Document} (hrow : k.row = d.row)
    (hid : layout.docId? k = some d.id) (d' : Document) :
    Answers layout terms es (Range.behind k) d'
      ↔ Answers layout terms es Range.all d' ∧ if d.id = [] then d ≤ d' else d < d' := by
  have hrows : (Range.behind k).containsRow d'.row = true ↔ d.row ≤ d'.row := by
    rw [Range.containsRow_iff, Range.isBeforeRow_eq_false_iff, ← hrow]
    simp [Range.behind, Range.startingAt, Range.isEmpty, Range.isAfterRow, Range.isAfter]
  constructor
  · rintro ⟨hasked, hspared, hcontains, hstart⟩
    refine ⟨⟨hasked, hspared, rfl, fun s hs => absurd hs (by simp [Range.all])⟩, ?_⟩
    have hle := hrows.mp hcontains
    by_cases hempty : d.id = []
    · rw [if_pos hempty, Document.le_iff, hempty]
      rcases lt_or_eq_of_le hle with hlt | heq
      · exact Or.inl hlt
      · exact Or.inr ⟨heq, List.nil_le _⟩
    · rw [if_neg hempty, Document.lt_iff]
      rcases lt_or_eq_of_le hle with hlt | heq
      · exact Or.inl hlt
      · exact Or.inr ⟨heq, hstart k rfl (hrow.trans heq) d.id hid hempty⟩
  · rintro ⟨⟨hasked, hspared, -, -⟩, hlater⟩
    have hle : d ≤ d' := by
      split at hlater
      · exact hlater
      · exact le_of_lt hlater
    have hle' : d.row ≤ d'.row := by
      rcases Document.le_iff.mp hle with hlt | ⟨heq, -⟩
      · exact le_of_lt hlt
      · exact le_of_eq heq
    refine ⟨hasked, hspared, hrows.mpr hle', ?_⟩
    intro s hs hsame id hid' hne
    -- the key itself is the start, and it names the document
    obtain rfl : k = s := Option.some.inj hs
    obtain rfl : d.id = id := Option.some.inj (hid.symm.trans hid')
    rw [if_neg hne, Document.lt_iff] at hlater
    show d.id < d'.id
    rcases hlater with hlt | ⟨-, hlt⟩
    · exact absurd hlt (not_lt.mpr (le_of_eq (hsame.symm.trans hrow)))
    · exact hlt

/-- The answers behind a key are the rest of all answers. -/
theorem Listed.behind {ds : List Document} (h : Listed layout terms es Range.all ds) {i : Nat}
    {d : Document} (hi : ds[i]? = some d) {k : Key} (hrow : k.row = d.row)
    (hid : layout.docId? k = some d.id) :
    Listed layout terms es (Range.behind k) (ds.drop (if d.id = [] then i else i + 1)) := by
  refine ⟨h.ascending.sublist (List.drop_sublist _ _), fun d' => ?_⟩
  rw [answers_behind_iff hrow hid, ← h.mem_iff]
  by_cases hempty : d.id = []
  · rw [if_pos hempty, if_pos hempty]
    exact Document.mem_drop_iff h.ascending hi d'
  · rw [if_neg hempty, if_neg hempty]
    exact Document.mem_drop_succ_iff h.ascending hi d'

/-! ## Going on -/

/-- A full scan lists the same hits whatever calls came before, and a scan of what lies behind
the key of one of them lists the hits after it; where its identity is empty it comes once
more. -/
theorem scan_behind {source : σ} (hsource : Serves source heeds es) (hplain : Plain es)
    (layout : Layout) (hlayout : layout.Separate) {terms : List Bytes} {flags : List Bool}
    (hterms : terms ≠ []) (hflags : flags = [] ∨ flags.length = terms.length)
    (hasks : ∃ t ∈ Query.withFlags terms flags, t.negated = false) (env : Environment) :
    ∃ x hits, ofTerms source layout terms flags env = .ok x
      ∧ (∀ calls families, (Scan.scan Range.all families (after x calls)).result = .ok hits)
      ∧ ∀ calls families i e, hits[i]? = some e → ∃ id, layout.docId? e.1 = some id
        ∧ (Scan.scan (Range.behind e.1) families (after x calls)).result
          = .ok (hits.drop (if id = [] then i else i + 1)) := by
  obtain ⟨x, hbuild, hready, hquery⟩ := ready_ofTerms hsource layout hterms hflags hasks env
  have hscan : ∀ calls range families, range.isEmpty = false →
      ∃ ds, Listed layout (Query.withFlags terms flags) es range ds
        ∧ (Scan.scan range families (after x calls)).result
          = .ok (displays heeds es layout ds) := by
    intro calls range families hrange
    obtain ⟨hthere, hquery'⟩ := ready_after hready calls
    have hlisted := scan_listed hthere hplain hrange families
    rw [hquery', hquery] at hlisted
    exact hlisted
  obtain ⟨ds, hds, -⟩ := hscan [] Range.all FamilyFilter.all rfl
  refine ⟨x, displays heeds es layout ds, hbuild, ?_, ?_⟩
  · intro calls families
    obtain ⟨ds', hds', hresult⟩ := hscan calls Range.all families rfl
    rw [hresult, hds.unique hds']
  · intro calls families i e hi
    rw [displays, List.getElem?_map, Option.map_eq_some_iff] at hi
    obtain ⟨d, hd, rfl⟩ := hi
    have hshown : (display heeds es layout d).1 = (display heeds es layout d).1 := rfl
    obtain ⟨hrow, hfamily, hqualifier⟩ := display_column hplain layout d hshown
    have hid := Layout.docId?_documentKey hlayout hfamily hqualifier
    refine ⟨d.id, hid, ?_⟩
    obtain ⟨ds', hds', hresult⟩ := hscan calls (Range.behind _) families rfl
    rw [hresult, hds'.unique (hds.behind hd hrow hid), displays, displays, List.map_drop]

/-! ### Two documents, and one without an identity -/

/-- Postings of the term `[1]` in an index family, for the documents `[7]` and `[8]`. -/
def catalog : Table :=
  Table.ofEntries
    [(⟨[5], [105], [1, 0, 7], [], 0, false⟩, []), (⟨[5], [105], [1, 0, 8], [], 0, false⟩, [])]

theorem scan_behind_catalog :
    ∃ x hits, ofTerms catalog (Layout.standard .indexFamily) [[1]] [] (Environment.ofAccount 0)
        = .ok x
      ∧ (∀ calls families, (Scan.scan Range.all families (after x calls)).result = .ok hits)
      ∧ ∀ calls families i e, hits[i]? = some e →
        ∃ id, (Layout.standard .indexFamily).docId? e.1 = some id
          ∧ (Scan.scan (Range.behind e.1) families (after x calls)).result
            = .ok (hits.drop (if id = [] then i else i + 1)) := by
  have hplain : Plain catalog.entries := by
    unfold Plain
    decide +kernel
  have hseparate : (Layout.standard .indexFamily).Separate := by
    constructor
    · decide +kernel
    · decide +kernel
  exact scan_behind (Table.serves catalog) hplain (Layout.standard .indexFamily) hseparate
    (List.cons_ne_nil [1] []) (Or.inl rfl) ⟨⟨[1], false⟩, List.mem_cons_self, rfl⟩
    (Environment.ofAccount 0)

/-- A posting of the term `[1]` for the document with the empty identity. -/
def nameless : Table := Table.ofEntries [(⟨[5], [1], [], [], 0, false⟩, [])]

/-- What lies behind the only hit is that hit again. -/
theorem scan_behind_nameless :
    ∃ x e, ofTerms nameless (Layout.standard .termFamily) [[1]] [] (Environment.ofAccount 0) = .ok x
      ∧ (Scan.scan Range.all FamilyFilter.all x).result = .ok [e]
      ∧ (Scan.scan (Range.behind e.1) FamilyFilter.all x).result = .ok [e] := by
  refine ⟨_, (Key.ofColumn [5] [101] [], []), rfl, ?_, ?_⟩
  · decide +kernel
  · decide +kernel

end Intersection

end CellScan
