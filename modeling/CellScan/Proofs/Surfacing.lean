/-
`Surfacing.lean` -- what a hit surfaces, and what is counted for it.

An intersection that stops at a hit looks for the document's own cell. It seeks the keys from
the first live key of the cell's column up to the first one of the next column, and what it
shows is the first entry there. Without deletion markers in front of whole columns these are
the entries of that row, family and qualifier and no others (`display_eq`), so a hit surfaces
the first of them, or a made-up cell where there is none (`surfaced`). Either has the three
names that the layout gives the document, and the layout reads the document off them: the cell
says which hit it is (`docId?_surfaced`), and two hits never surface the same one.

Each search that stops at a hit counts that hit, and whether its cell was found. So over a
source that counts no hits itself, as tables, tapes, merges and filters do not, a scan counts
as many hits as it visits, and as many documents as there are cells among what it shows
(`hits_scan`). Only an intersection counts hits, and one that has any is not among the sources
meant here: it keeps a range by rows, and a source by keys.
-/
import CellScan.Proofs.Paging
import CellScan.Proofs.Silence

set_option autoImplicit false

namespace CellScan

open CellScan.Action CellScan.Cursor
open scoped Linear

/-! ## Counting hits -/

namespace Tally

/-- Whether a hit is counted. -/
def isHit : Tally → Bool
  | .hit _ => true
  | _ => false

end Tally

namespace Statistics

theorem hits_tallyAll (s : Statistics) (ts : List Tally) :
    (s.tallyAll ts).hits = s.hits + UInt64.ofNat (ts.countP Tally.isHit) := by
  refine counter_tallyAll ?_ s ts
  intro s t
  rcases t with _ | _ | (_ | _) | (_ | _) | _ | (_ | _) | _ <;> simp [tally, Tally.isHit]

theorem documents_tallyAll (s : Statistics) (ts : List Tally) :
    (s.tallyAll ts).documents = s.documents + UInt64.ofNat (ts.countP (· = .hit true)) := by
  refine counter_tallyAll ?_ s ts
  intro s t
  rcases t with _ | _ | (_ | _) | (_ | _) | _ | (_ | _) | _ <;> simp [tally]

end Statistics

namespace Event

variable {a : Account}

/-- An event that counts a hit on an account. -/
def CountsHit (a : Account) (e : Event) : Prop := ∃ fetched, e = .count a (.hit fetched)

/-- The hits among events that an account is to count. -/
def hitsOf (a : Account) (events : List Event) : List Tally :=
  (talliesOf a events).filter Tally.isHit

theorem hitsOf_append (a : Account) (es fs : List Event) :
    hitsOf a (es ++ fs) = hitsOf a es ++ hitsOf a fs := by
  rw [hitsOf, talliesOf_append, List.filter_append, hitsOf, hitsOf]

theorem hitsOf_eq_nil {events : List Event} (h : ∀ e ∈ events, ¬ CountsHit a e) :
    hitsOf a events = [] := by
  rw [hitsOf, List.filter_eq_nil_iff]
  intro t ht hhit
  rw [mem_talliesOf] at ht
  rcases t with _ | _ | _ | _ | _ | fetched | _
  case hit => exact h _ ht ⟨fetched, rfl⟩
  all_goals exact Bool.noConfusion hhit

theorem hitsOf_hit (a : Account) (fetched : Bool) :
    hitsOf a [.count a (.hit fetched)] = [.hit fetched] := by
  rw [hitsOf, talliesOf_cons_count, if_pos rfl]
  rfl

theorem hitsOf_seek (a b : Account) : hitsOf a [.count b .seek] = [] := by
  refine hitsOf_eq_nil ?_
  intro e he
  obtain rfl := List.mem_singleton.mp he
  rintro ⟨fetched, hseek⟩
  exact Event.noConfusion hseek fun _ ht => Tally.noConfusion ht

end Event

/-- The hits among events are what the two counters of hits go up by. -/
theorem Ledger.counters_of_hits (l : Ledger) {a : Account} {events : List Event} {α : Type}
    {hits : List α} {stored : α → Bool}
    (h : Event.hitsOf a events = hits.map fun x => .hit (stored x)) :
    ((l.enterAll events).statistics a).hits
        = (l.statistics a).hits + UInt64.ofNat hits.length
      ∧ ((l.enterAll events).statistics a).documents
        = (l.statistics a).documents + UInt64.ofNat (hits.countP stored) := by
  have hcount : (Event.talliesOf a events).countP Tally.isHit = hits.length := by
    have hlen := congrArg List.length h
    rwa [Event.hitsOf, ← List.countP_eq_length_filter, List.length_map] at hlen
  have hfetched : (Event.talliesOf a events).countP (· = .hit true) = hits.countP stored := by
    have hfilter := congrArg (List.countP (· = .hit true)) h
    rw [Event.hitsOf, List.countP_filter, List.countP_map] at hfilter
    -- a fetched document is a hit to begin with
    refine (List.countP_congr ?_).trans (hfilter.trans (List.countP_congr ?_))
    · intro t _
      rcases t with _ | _ | _ | _ | _ | (_ | _) | _ <;> simp [Tally.isHit]
    · intro x _
      simp
  rw [Ledger.statistics_enterAll, Statistics.hits_tallyAll, Statistics.documents_tallyAll, hcount,
    hfetched]
  exact ⟨rfl, rfl⟩

/-! ## A document's own cell -/

namespace Intersection

open CellScan.Probe

variable {σ : Type} [Cursor σ] {heeds : Bool} {es : List Entry} {q : Query}

/-- The entry has the row, the family and the qualifier of the document's key. -/
def IsCell (layout : Layout) (d : Document) (e : Entry) : Prop :=
  e.1.row = (layout.documentKey d.row d.id).row
    ∧ e.1.family = (layout.documentKey d.row d.id).family
    ∧ e.1.qualifier = (layout.documentKey d.row d.id).qualifier

instance (layout : Layout) (d : Document) (e : Entry) : Decidable (IsCell layout d e) :=
  inferInstanceAs (Decidable (_ ∧ _ ∧ _))

/-- The first entry that is a document's cell. -/
def stored? (es : List Entry) (layout : Layout) (d : Document) : Option Entry :=
  es.find? fun e => IsCell layout d e

/-- What a hit surfaces: the first entry that is the document's cell, or where there is none
the document's key without a value. -/
def surfaced (es : List Entry) (layout : Layout) (d : Document) : Entry :=
  (stored? es layout d).getD (layout.documentKey d.row d.id, [])

/-- What is shown for a document is its cell. -/
theorem display_eq (hplain : Plain es) (layout : Layout) (d : Document) :
    display heeds es layout d = (surfaced es layout d, (stored? es layout d).isSome) := by
  have hcolumn : column heeds es (layout.documentKey d.row d.id)
      = es.filter fun e => IsCell layout d e := by
    refine List.filter_congr ?_
    intro e he
    rw [Bool.eq_iff_iff, decide_eq_true_iff, Bool.and_eq_true, Bool.or_eq_true,
      Range.contains_ofColumn_iff (hplain e he), FamilyFilter.accepts_only, decide_eq_true_iff]
    -- the family asked for is that of the column
    exact ⟨And.left, fun h => ⟨h, Or.inl h.2.1⟩⟩
  have hhead : (column heeds es (layout.documentKey d.row d.id)).head? = stored? es layout d := by
    rw [hcolumn, List.head?_filter, stored?]
  rw [display, hhead, surfaced]
  rcases stored? es layout d with _ | e
  · rfl
  · rfl

theorem isCell_surfaced (es : List Entry) (layout : Layout) (d : Document) :
    IsCell layout d (surfaced es layout d) := by
  rcases hstored : stored? es layout d with _ | e
  · rw [surfaced, hstored]
    exact ⟨rfl, rfl, rfl⟩
  · have hcell := List.find?_some hstored
    rw [surfaced, hstored]
    exact of_decide_eq_true hcell

/-- The cell that a hit surfaces says which hit it is. -/
theorem docId?_surfaced {layout : Layout} (h : layout.Separate) (es : List Entry) (d : Document) :
    layout.docId? (surfaced es layout d).1 = some d.id := by
  obtain ⟨-, hfamily, hqualifier⟩ := isCell_surfaced es layout d
  exact Layout.docId?_documentKey h hfamily hqualifier

/-- Different documents have different cells. -/
theorem eq_of_surfaced {layout : Layout} (h : layout.Separate) {d d' : Document}
    (hkey : (surfaced es layout d).1 = (surfaced es layout d').1) : d = d' := by
  -- the row can be read off the cell, and the identity with the help of the layout
  have hrow : d.row = d'.row := by
    have hd := (isCell_surfaced es layout d).1
    rw [hkey, (isCell_surfaced es layout d').1, documentKey_row, documentKey_row] at hd
    exact hd.symm
  have hid : d.id = d'.id := by
    have hd := docId?_surfaced h es d
    rw [hkey, docId?_surfaced h es d'] at hd
    exact (Option.some.inj hd).symm
  exact Document.mk.injEq .. |>.mpr ⟨hrow, hid⟩

/-! ## What is shown after any calls -/

/-- Where calls and copying can bring an intersection: its cursors serve what they served, and
it shows the hit that it stands at, if it stands at one. -/
structure Showing (heeds : Bool) (es : List Entry) (q : Query) (x : Intersection σ) : Prop where
  ready : Ready heeds es x
  query : x.query = q
  shown : x.shown = x.hit.map fun d => (display heeds es q.layout d).1

theorem Arrived.showing {x y : Intersection σ} {t : Target} (h : Arrived heeds es t x y)
    (hquery : x.query = q) : Showing heeds es q y := by
  refine ⟨h.searched.ready, h.query.trans hquery, ?_⟩
  rw [h.shown, h.query, hquery]

theorem showing_opened {source copied : σ} (hs : Serves source heeds es)
    (hc : Serves copied heeds es) (q : Query) (env : Environment) :
    Showing heeds es q (opened source copied q env) :=
  ⟨ready_opened hs hc q env, rfl, rfl⟩

/-- An intersection over copies of a source that never fails can always be built. -/
theorem exists_ofQuery {source : σ} (hs : Serves source heeds es) (q : Query) (env : Environment) :
    ∃ x, ofQuery source q env = .ok x ∧ Showing heeds es q x := by
  obtain ⟨c, hc, -⟩ := hs.lists.copy Reached.here env
  exact ⟨_, ofQuery_of_copy hc q,
    showing_opened hs (hs.of_reached (Reached.here.copy env hc)) q env⟩

theorem showing_make {x : Intersection σ} (h : Showing heeds es q x) (call : Call) :
    Showing heeds es q (make x call) := by
  rcases call with ⟨range, families⟩ | _
  · obtain ⟨y, hy, hcases⟩ := seek_cases h.ready range families
    have hmake : make x (.seek range families) = y := hy.state
    rw [hmake]
    obtain ⟨-, rfl⟩ | ⟨-, harr⟩ := hcases
    · exact ⟨ready_restart h.ready range, h.query, rfl⟩
    · exact harr.showing h.query
  · obtain ⟨-, hmake⟩ | ⟨d, y, -, hy, harr⟩ := next_cases h.ready
    · rw [hmake]
      exact h
    · have hmake : make x .next = y := hy.state
      rw [hmake]
      exact harr.showing h.query

theorem showing_reached {x y : Intersection σ} (h : Showing heeds es q x) (hy : Reached x y) :
    Showing heeds es q y := by
  induction hy with
  | here => exact h
  | seek range families _ ih => exact showing_make ih (.seek range families)
  | next _ ih => exact showing_make ih .next
  | @copy y z env _ hcopy ih =>
      -- the copy is built anew over a copy of the source, for the same query
      obtain ⟨source, hs, -⟩ := ih.ready.source.lists.copy Reached.here env
      obtain ⟨z', hz', hshowing⟩ :=
        exists_ofQuery (ih.ready.source.of_reached (Reached.here.copy env hs)) q env
      have hbuilt : copyFor env y = .ok z' := by
        rw [copyFor, hs, ih.query]
        exact hz'
      obtain rfl := Except.ok.inj (hcopy.symm.trans hbuilt)
      exact hshowing

theorem Showing.top {x : Intersection σ} (h : Showing heeds es q x) (hplain : Plain es) :
    Cursor.top x = x.hit.map (surfaced es q.layout) := by
  refine h.shown.trans (Option.map_congr ?_)
  intro d _
  rw [display_eq hplain]

/-- Where the layout keeps its documents apart from its postings, the key on top says at which
hit an intersection stands. -/
theorem Showing.hit_of_topKey {x y : Intersection σ} (hx : Showing heeds es q x)
    (hy : Showing heeds es q y) (hplain : Plain es) (hlayout : q.layout.Separate)
    (h : Cursor.topKey x = Cursor.topKey y) : x.hit = y.hit := by
  rw [Cursor.topKey, Cursor.topKey, hx.top hplain, hy.top hplain, Option.map_map,
    Option.map_map] at h
  exact Option.map_injective (fun d d' hd => eq_of_surfaced hlayout hd) h

/-! ## What a search counts -/

/-- All cursors of the intersection are silent about hits on its account, so those that are
counted there it counts itself. -/
structure Counting (heeds : Bool) (es : List Entry) (q : Query) (a : Account)
    (x : Intersection σ) : Prop where
  ready : Ready heeds es x
  cursors : Keeping (Silent (Event.CountsHit a)) q x
  account : x.account = a

/-- A hit as it is counted. -/
def tallyOf (es : List Entry) (layout : Layout) (d : Document) : Tally :=
  .hit (stored? es layout d).isSome

variable {a : Account} {x y : Intersection σ}

/-- To stand at a hit is to count it once. -/
theorem hits_stand (h : Counting heeds es q a x) (hplain : Plain es) (d : Document) :
    Event.hitsOf a (stand d x).events = [tallyOf es q.layout d] := by
  obtain ⟨c, hc, -⟩ := fetch_runs h.ready.documents d
  -- the look-up counts nothing, so the hit alone is left
  have hquiet : Event.hitsOf a (fetch d x).events = [] :=
    Event.hitsOf_eq_nil (omits_fetch d x h.cursors _ hc.result)
  have hevents : (stand d x).events = (fetch d x).events
      ++ [.count x.account (.hit (display heeds es x.query.layout d).2)] := hc.events_bind _
  rw [hevents, Event.hitsOf_append, hquiet, List.nil_append, display_eq hplain, h.account,
    Event.hitsOf_hit, h.cursors.query, tallyOf]

/-- A search counts the hit it stops at, and nothing if it stops at none. -/
theorem goTo_counts (h : Counting heeds es q a x) (hplain : Plain es) (t : Target) :
    ∃ y, Runs (goTo t) x () y ∧ Counting heeds es q a y
      ∧ Event.hitsOf a (goTo t x).events = (y.hit.map (tallyOf es q.layout)).toList := by
  obtain ⟨r, ps, ns, hr, hsearched⟩ := nextHit_ready h.ready t
  have hcleared : Keeping (Silent (Event.CountsHit a)) q { x with hit := none, shown := none } :=
    ⟨h.cursors.query, h.cursors.source, h.cursors.documents, h.cursors.positives,
      h.cursors.negatives⟩
  have hterm : ∀ b, ¬ Event.CountsHit a (.count b .termSeek) := by
    rintro b ⟨fetched, hseek⟩
    exact Event.noConfusion hseek fun _ ht => Tally.noConfusion ht
  have hquiet := Event.hitsOf_eq_nil (omits_nextHit hterm _ t _ hcleared _ hr.result)
  -- the cursors stay silent up to where the search stops, and from there on
  have hcursors := keeps_nextHit silent_seeks x.situations t _ hcleared
  have hend := keeps_goTo silent_seeks t x h.cursors
  rw [hr.state] at hcursors
  rcases r with _ | d
  · have hgo := goTo_of_none hr
    have hevents : (goTo t x).events
        = (nextHit x.situations t { x with hit := none, shown := none }).events ++ [] :=
      hr.events_bind _
    rw [hgo.state] at hend
    refine ⟨_, hgo, ⟨hsearched.ready, hend, h.account⟩, ?_⟩
    rw [hevents, List.append_nil, hquiet]
    rfl
  · obtain ⟨c, hc, hserves⟩ := stand_runs hsearched.ready.documents d
    have hgo := goTo_of_some hr hc
    have hevents : (goTo t x).events
        = (nextHit x.situations t { x with hit := none, shown := none }).events
          ++ (stand d
            { x with hit := none, shown := none, positives := ps, negatives := ns }).events :=
      hr.events_bind _
    rw [hgo.state] at hend
    refine ⟨_, hgo, ⟨⟨hsearched.ready.source, hserves, hsearched.ready.positives,
      hsearched.ready.negatives⟩, hend, h.account⟩, ?_⟩
    rw [hevents, Event.hitsOf_append, hquiet, List.nil_append,
      hits_stand ⟨hsearched.ready, hcursors, h.account⟩ hplain d]
    rfl

theorem seek_counts (h : Counting heeds es q a x) (hplain : Plain es) (range : Range)
    (families : FamilyFilter) :
    ∃ y, Runs (Cursor.seek range families) x () y ∧ Counting heeds es q a y
      ∧ Event.hitsOf a (Cursor.seek range families x).events
        = (y.hit.map (tallyOf es q.layout)).toList := by
  have hrestart : Counting heeds es q a (restart range x) :=
    ⟨ready_restart h.ready range, h.cursors.restart range, h.account⟩
  -- the seek itself is counted, but not as a hit
  have hevents : (Cursor.seek range families x).events = [.count x.account .seek]
      ++ ((if range.isEmpty then pure () else goTo (Target.ofRange x.query.layout range) :
        Action (Intersection σ) Unit) (restart range x)).events := rfl
  rw [hevents, Event.hitsOf_append, Event.hitsOf_seek, List.nil_append]
  by_cases hempty : range.isEmpty = true
  · refine ⟨_, (seek_of_isEmpty hempty families x).1, hrestart, ?_⟩
    rw [if_pos hempty]
    rfl
  · obtain ⟨y, hy, hcounting, hhits⟩ :=
      goTo_counts hrestart hplain (Target.ofRange x.query.layout range)
    rw [if_neg hempty]
    refine ⟨y, place_runs ?_, hcounting, hhits⟩
    rw [if_neg hempty]
    exact hy

theorem next_counts (h : Counting heeds es q a x) (hplain : Plain es) {d : Document}
    (hhit : x.hit = some d) :
    ∃ y, Runs Cursor.next x () y ∧ Counting heeds es q a y
      ∧ Event.hitsOf a (Cursor.next x).events = (y.hit.map (tallyOf es q.layout)).toList := by
  have hleft : Counting heeds es q a { x with hit := none } :=
    ⟨⟨h.ready.source, h.ready.documents, h.ready.positives, h.ready.negatives⟩,
      ⟨h.cursors.query, h.cursors.source, h.cursors.documents, h.cursors.positives,
        h.cursors.negatives⟩, h.account⟩
  obtain ⟨y, hy, hcounting, hhits⟩ := goTo_counts hleft hplain (Target.afterDocument d)
  have hnext : Cursor.next x = goTo (Target.afterDocument d) { x with hit := none } :=
    step_of_hit hhit
  rw [← hnext] at hhits
  exact ⟨y, hy.of_eq hnext, hcounting, hhits⟩

/-! ## What a scan counts -/

theorem Visits.hit {vs : List (Document × Entry)} (h : Visits x vs) :
    x.hit = (vs.map Prod.fst).head? := by
  cases h with
  | done hhit _ => exact hhit
  | more hhit _ _ _ _ => exact hhit

/-- To collect what a state leads to is to count the hits behind the one it stands at. -/
theorem hits_collect (hplain : Plain es) {vs : List (Document × Entry)} (hvisits : Visits x vs)
    (h : Counting heeds es q a x) {n : Nat} (hn : vs.length < n) :
    Event.hitsOf a (Scan.collect n x).events
      = ((vs.map Prod.fst).tail).map (tallyOf es q.layout) := by
  induction hvisits generalizing n with
  | done _ htop =>
      obtain ⟨n, rfl⟩ : ∃ k, n = k + 1 := ⟨n - 1, by omega⟩
      simp only [Scan.collect, htop]
      rfl
  | @more x z d e vs hhit htop hnext _ hrest ih =>
      obtain ⟨n, rfl⟩ : ∃ k, n = k + 1 := ⟨n - 1, by omega⟩
      have hlen : vs.length < n := by
        rw [List.length_cons] at hn
        omega
      obtain ⟨y, hy, hcounting, hhits⟩ := next_counts h hplain hhit
      obtain rfl : y = z := hy.state.symm.trans hnext.state
      have hleads := hrest.leads.collect (n := n) (by rwa [List.length_map])
      have hevents : (Scan.collect (n + 1) x).events
          = (Cursor.next x).events ++ ((Scan.collect n y).events ++ []) := by
        simp only [Scan.collect, htop]
        rw [hnext.events_bind, (runs_of_result hleads).events_bind]
        rfl
      -- the step counts the hit it arrives at, the rest those behind that one
      rw [hevents, List.append_nil, Event.hitsOf_append, hhits, ih hcounting hlen, hrest.hit]
      rcases vs with _ | ⟨v, vs⟩
      · rfl
      · rfl

/-- A seek leads through hits, each with the cell that it surfaces. -/
theorem exists_visits (h : Showing heeds es q x) (hplain : Plain es) (range : Range)
    (families : FamilyFilter) :
    ∃ y, ∃ ds : List Document, Runs (Cursor.seek range families) x () y
      ∧ Visits y (ds.map fun d => (d, surfaced es q.layout d)) := by
  by_cases hrange : range.isEmpty = true
  · obtain ⟨hseek, hvisits⟩ := seek_of_isEmpty hrange families x
    exact ⟨_, [], hseek, hvisits⟩
  · rw [Bool.not_eq_true] at hrange
    obtain ⟨y, vs, hseek, hvisits, hhits, -⟩ := visits_of_seek h.ready hrange families
    have hvs : (vs.map Prod.fst).map (fun d => (d, surfaced es q.layout d)) = vs := by
      rw [List.map_map]
      refine (List.map_congr_left fun v hv => ?_).trans (List.map_id vs)
      refine Prod.ext rfl ?_
      show surfaced es q.layout v.1 = v.2
      rw [hhits.shown v hv, h.query, display_eq hplain]
    refine ⟨y, vs.map Prod.fst, hseek, ?_⟩
    rw [hvs]
    exact hvisits

/-- A scan counts the hits it visits. -/
theorem hits_scan (h : Counting heeds es q a x) (hplain : Plain es) {range : Range}
    {families : FamilyFilter} {vs : List (Document × Entry)}
    (hseek : Runs (Cursor.seek range families) x () y) (hvisits : Visits y vs) :
    Event.hitsOf a (Scan.scan range families x).events
      = (vs.map Prod.fst).map (tallyOf es q.layout) := by
  obtain ⟨z, hz, hcounting, hhits⟩ := seek_counts h hplain range families
  obtain rfl : z = y := hz.state.symm.trans hseek.state
  have hlen : vs.length < Cursor.reach z + 1 := by
    have hle := hvisits.leads.length_le
    rw [List.length_map] at hle
    exact Nat.lt_succ_of_le hle
  have hevents : (Scan.scan range families x).events
      = (Cursor.seek range families x).events ++ (Scan.collect (Cursor.reach z + 1) z).events :=
    hseek.events_bind _
  -- the seek counts the first hit, if there is one, and collecting counts the others
  rw [hevents, Event.hitsOf_append, hhits, hits_collect hplain hvisits hcounting hlen, hvisits.hit]
  rcases vs with _ | ⟨v, vs⟩
  · rfl
  · rfl

/-! ## Hits and their documents -/

/-- Each hit surfaces its own document. Wherever calls and copying bring an intersection, it
shows the first entry that is the cell of the document it stands at, or a made-up one where
the source has none; in a layout that keeps its documents apart from its postings the key
shown says which document that is, so no two hits show the same cell. And a scan shows each
hit it visits in this way and counts it, with a document for each that has a cell, provided
that the source does not count hits on the same account. -/
theorem surfaces_own {source : σ} (hsource : Serves source heeds es) (hplain : Plain es)
    (q : Query) (env : Environment) :
    ∃ x, ofQuery source q env = .ok x ∧ ∀ y, Reached x y →
      Cursor.top y = y.hit.map (surfaced es q.layout)
      ∧ (q.layout.Separate →
        (∀ d e, y.hit = some d → Cursor.top y = some e → q.layout.docId? e.1 = some d.id)
          ∧ ∀ z, Reached x z → Cursor.topKey y = Cursor.topKey z → y.hit = z.hit)
      ∧ ∀ range families, ∃ z, ∃ ds : List Document, Runs (Cursor.seek range families) y () z
        ∧ Visits z (ds.map fun d => (d, surfaced es q.layout d))
        ∧ (Scan.scan range families y).result = .ok (ds.map (surfaced es q.layout))
        ∧ (Silent (Event.CountsHit y.account) source → ∀ l : Ledger,
          ((l.enterAll (Scan.scan range families y).events).statistics y.account).hits
              = (l.statistics y.account).hits + UInt64.ofNat ds.length
            ∧ ((l.enterAll (Scan.scan range families y).events).statistics y.account).documents
              = (l.statistics y.account).documents
                + UInt64.ofNat (ds.countP fun d => (stored? es q.layout d).isSome)) := by
  obtain ⟨x, hbuild, hshowing⟩ := exists_ofQuery hsource q env
  refine ⟨x, hbuild, fun y hy => ?_⟩
  have hthere := showing_reached hshowing hy
  have htop := hthere.top hplain
  refine ⟨htop, ?_, ?_⟩
  · intro hlayout
    refine ⟨?_, fun z hz => hthere.hit_of_topKey (showing_reached hshowing hz) hplain hlayout⟩
    intro d e hhit he
    rw [htop, hhit] at he
    obtain rfl := Option.some.inj he
    exact docId?_surfaced hlayout es d
  · intro range families
    obtain ⟨z, ds, hseek, hvisits⟩ := exists_visits hthere hplain range families
    have hresult := hvisits.leads.scan hseek
    rw [List.map_map] at hresult
    refine ⟨z, ds, hseek, hvisits, hresult, ?_⟩
    intro hsilent l
    have hcounting : Counting heeds es q y.account y :=
      ⟨hthere.ready, keeping_reached (keeping_of_ofQuery hsilent hbuild) hy, rfl⟩
    have hhits := hits_scan hcounting hplain hseek hvisits
    rw [List.map_map, List.map_map] at hhits
    exact l.counters_of_hits hhits

/-! ### A document with a cell and one without -/

/-- Postings of the term `[1]` for the documents `[7]` and `[8]` in an index family, and two
versions of the cell of the first. -/
def archive : Table :=
  Table.ofEntries
    [(⟨[5], [101], [7], [], 3, false⟩, [2]), (⟨[5], [101], [7], [], 9, false⟩, [1]),
      (⟨[5], [105], [1, 0, 7], [], 0, false⟩, []), (⟨[5], [105], [1, 0, 8], [], 0, false⟩, [])]

/-- The documents with the term `[1]`. -/
def ofArchive : Query :=
  ⟨Layout.standard .indexFamily, [⟨[1], false⟩], ⟨⟨[1], false⟩, List.mem_cons_self, rfl⟩⟩

/-- The first hit surfaces the later version of its cell, the second one a made-up cell: two
hits are counted, and one document. -/
theorem surfaces_own_archive :
    ∃ x, ofQuery archive ofArchive (Environment.ofAccount 0) = .ok x
      ∧ (Scan.scan Range.all FamilyFilter.all x).result
        = .ok [(⟨[5], [101], [7], [], 9, false⟩, [1]), (Key.ofColumn [5] [101] [8], [])]
      ∧ ∀ l : Ledger,
        ((l.enterAll (Scan.scan Range.all FamilyFilter.all x).events).statistics x.account).hits
            = (l.statistics x.account).hits + 2
          ∧ ((l.enterAll (Scan.scan Range.all FamilyFilter.all x).events).statistics
              x.account).documents = (l.statistics x.account).documents + 1 := by
  have hplain : Plain archive.entries := by
    unfold Plain
    decide +kernel
  have hseparate : ofArchive.layout.Separate := by
    constructor
    · decide +kernel
    · decide +kernel
  -- the scan is evaluated once, and what it counts follows from what it shows
  obtain ⟨x, hbuild, hall⟩ :=
    surfaces_own (Table.serves archive) hplain ofArchive (Environment.ofAccount 0)
  obtain ⟨-, -, hscan⟩ := hall x Reached.here
  obtain ⟨-, ds, -, -, hresult, hcount⟩ := hscan Range.all FamilyFilter.all
  have hread : (ofQuery archive ofArchive (Environment.ofAccount 0)).map
        (fun x => (Scan.scan Range.all FamilyFilter.all x).result)
      = .ok (.ok ([⟨[5], [7]⟩, ⟨[5], [8]⟩].map (surfaced archive.entries ofArchive.layout))) := by
    decide +kernel
  rw [hbuild] at hread
  have hdocuments : ds = [⟨[5], [7]⟩, ⟨[5], [8]⟩] := by
    have hmap := Except.ok.inj (hresult.symm.trans (Except.ok.inj hread))
    exact List.map_injective_iff.mpr
      (fun d d' hd => eq_of_surfaced hseparate (congrArg Prod.fst hd)) hmap
  rw [hdocuments] at hresult hcount
  refine ⟨x, hbuild, ?_, hcount archive.silent⟩
  rw [hresult]
  decide +kernel

end Intersection

end CellScan
